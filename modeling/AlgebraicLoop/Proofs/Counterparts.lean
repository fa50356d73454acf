import AlgebraicLoop.Proofs.TwoRuns
import AlgebraicLoop.Proofs.UnitChanges

/-!
# Counterpart sessions

Two sessions solve the same loop, the second one with its equations in other units. What they know of
the Jacobian may differ as well: one of them may have evaluated it before. All else that a solve reads
is the same in both, up to the units.

* `Exchange`, `Exchange.problem`: the units, and the problem in them;
* `Core`, `Gear`: what the sessions share, and what they know of the Jacobian;
* `Mirror`: sessions that correspond;
* `Meets`, `Echoes`: actions that come to the same from such sessions;
* `evaluate_meets`, `differences_meets`, `compressedDifferences_meets`: what is asked of the model.
-/

namespace AlgebraicLoop
set_option autoImplicit false

section
variable {α σ ν : Type} [Scalar α] {n : Nat}

/-! ## Problems in other units -/

/-- A request that writes another matrix where it succeeds. -/
def Writing.map (f : Mat α n n → Mat α n n) (w : Writing α σ n) : Writing α σ n where
  run A :=
    match w.run A with
    | ((.ok (), B), s) => ((.ok (), f B), s)
    | failed => failed

omit [Scalar α] in
theorem Writing.answer_map (f : Mat α n n → Mat α n n) (w : Writing α σ n) (A : Mat α n n) :
    (w.map f).answer A = ((w.answer A).1.map f, (w.answer A).2) := by
  unfold Writing.answer Writing.left Writing.map
  dsimp only
  obtain ⟨⟨ends, B⟩, s⟩ := w.run A
  cases ends <;> rfl

omit [Scalar α] in
theorem Writing.map_of_eq {f : Mat α n n → Mat α n n} (hf : ∀ A, f A = A) (w : Writing α σ n) :
    w.map f = w := by
  obtain ⟨run⟩ := w
  unfold Writing.map
  congr 1
  funext A
  dsimp only
  obtain ⟨⟨ends, B⟩, s⟩ := run A
  cases ends with
  | error failure => rfl
  | ok _ => dsimp only; rw [hf]

/-- A model whose equations are written in other units. -/
def UnitChange.model (U : UnitChange α n) (m : Model α σ n) : Model α σ n :=
  { m with
    evaluate := fun x s => ((m.evaluate x s).1.map U.residual, (m.evaluate x s).2)
    jacobian := m.jacobian.map fun J x s => (J x s).map U.matrix
    directional := m.directional.map fun d x direction s =>
      ((d x direction s).1.map U.residual, (d x direction s).2) }

/-- Two runs to compare: the units of the second one, what their answers may depend on, and the points
where each of them evaluated the residual before. -/
structure Exchange (α σ ν : Type) [Scalar α] (n : Nat) where
  units : UnitChange α n
  view : σ → ν
  past : List (Vector α n)
  past' : List (Vector α n)

/-- The problem of the second run. -/
def Exchange.problem (E : Exchange α σ ν n) (P : Problem α σ n) : Problem α σ n :=
  { P with model := E.units.model P.model }

/-! ## What sessions share -/

/-- What two sessions share. -/
structure Core (α : Type) (n : Nat) where
  x : Vector α n
  lower : Vector α n
  upper : Vector α n
  nominal : Vector α n
  bracket : Bracket α
  variableScale : Vector α n
  box : Box α n
  pattern : Option (Pattern n n)
  history : Option (StepHistory α n)
  lastNorm : α
  singular : Bool
  forceRescaling : Bool
  useSteepestDescent : Bool
  poorlyScaled : Bool
  premarkedSingular : Bool
  recovery : RecoveryMode
  firstAttempt : Bool
  retrying : Bool
  jacobianMismatches : Nat

/-- What a session knows of the Jacobian and has taken from it. -/
structure Gear (α : Type) (n : Nat) where
  jacobian : Mat α n n
  factorization : Factorization α n
  residualScale : Vector α n
  generation : Nat
  factoredGeneration : Option Nat
  current : Bool
  forced : Bool
  atPoint : Bool
  age : Nat
  eventSince : Bool

/-- The point that was evaluated, if the request was for the residual. -/
def Call.point? : Call α n → Option (Vector α n)
  | .evaluate x _ => some x
  | .start _ | .evaluateAuxiliary _ _ | .writeBack _ _ | .jacobian _ _ | .directional _ _ _ => none

namespace Session

/-- What is shared with a session in other units. -/
def core (s : Session α σ n) : Core α n where
  x := s.x
  lower := s.lower
  upper := s.upper
  nominal := s.nominal
  bracket := s.bracket
  variableScale := s.work.variableScale
  box := s.work.box.blank
  pattern := s.work.pattern
  history := s.work.history
  lastNorm := s.work.lastNorm
  singular := s.work.flags.singular
  forceRescaling := s.work.flags.forceRescaling
  useSteepestDescent := s.work.flags.useSteepestDescent
  poorlyScaled := s.work.flags.poorlyScaled
  premarkedSingular := s.work.premarkedSingular
  recovery := s.work.recovery
  firstAttempt := s.work.firstAttempt
  retrying := s.work.retrying
  jacobianMismatches := s.work.jacobianMismatches

/-- What is known of the Jacobian. -/
def gear (s : Session α σ n) : Gear α n where
  jacobian := s.work.jacobian
  factorization := s.work.factorization
  residualScale := s.work.residualScale
  generation := s.work.generation
  factoredGeneration := s.work.factoredGeneration
  current := s.work.flags.jacobianCurrent
  forced := s.work.flags.forceNewJacobian
  atPoint := s.work.jacobianAtPoint
  age := s.work.jacobianAge
  eventSince := s.eventSinceJacobian

/-- The points where the residual was asked for, oldest first. -/
def points (s : Session α σ n) : List (Vector α n) := s.calls.toList.filterMap Call.point?

end Session

/-- The last step, with the residual before it in other units. -/
def UnitChange.past (U : UnitChange α n) (h : StepHistory α n) : StepHistory α n :=
  { h with residual := U.residual h.residual }

/-- What is shared, in other units. -/
def UnitChange.core (U : UnitChange α n) (c : Core α n) : Core α n :=
  { c with bracket := U.first.bracket c.bracket, history := c.history.map U.past }

/-- Two sessions that correspond, with a relation between what they know of the Jacobian. -/
structure Mirror (E : Exchange α σ ν n) (T : Gear α n → Gear α n → Prop)
    (s s' : Session α σ n) : Prop where
  core : s'.core = E.units.core s.core
  gear : T s.gear s'.gear
  view : E.view s.model = E.view s'.model
  points : ∃ new, s.points = E.past ++ new ∧ s'.points = E.past' ++ new

variable {E : Exchange α σ ν n} {T T' : Gear α n → Gear α n → Prop} {s s' : Session α σ n}

namespace Mirror

theorem mono (h : Mirror E T s s') (hT : T s.gear s'.gear → T' s.gear s'.gear) :
    Mirror E T' s s' := { h with gear := hT h.gear }

theorem x (h : Mirror E T s s') : s'.x = s.x := congrArg Core.x h.core

theorem lower (h : Mirror E T s s') : s'.lower = s.lower := congrArg Core.lower h.core

theorem upper (h : Mirror E T s s') : s'.upper = s.upper := congrArg Core.upper h.core

theorem nominal (h : Mirror E T s s') : s'.nominal = s.nominal := congrArg Core.nominal h.core

theorem bracket (h : Mirror E T s s') : s'.bracket = E.units.first.bracket s.bracket :=
  congrArg Core.bracket h.core

theorem variableScale (h : Mirror E T s s') : s'.work.variableScale = s.work.variableScale :=
  congrArg Core.variableScale h.core

theorem box (h : Mirror E T s s') : s'.work.box.blank = s.work.box.blank := congrArg Core.box h.core

theorem history (h : Mirror E T s s') : s'.work.history = s.work.history.map E.units.past :=
  congrArg Core.history h.core

theorem singular (h : Mirror E T s s') : s'.work.flags.singular = s.work.flags.singular :=
  congrArg Core.singular h.core

end Mirror

/-! ## Runs that come to the same -/

variable {β γ β' γ' : Type}

/-- Two results that correspond: both are values, or both are the same halt. -/
def Meets (Q : β → γ → Session α σ n → Session α σ n → Prop)
    (H : Session α σ n → Session α σ n → Prop) :
    EStateM.Result (Halt α) (Session α σ n) β → EStateM.Result (Halt α) (Session α σ n) γ → Prop
  | .ok v s, .ok v' s' => Q v v' s s'
  | .error halt s, .error halt' s' => halt = halt' ∧ H s s'
  | .ok _ _, .error _ _ | .error _ _, .ok _ _ => False

section
variable {Q : β → γ → Session α σ n → Session α σ n → Prop}
  {R : β' → γ' → Session α σ n → Session α σ n → Prop} {H : Session α σ n → Session α σ n → Prop}

omit [Scalar α] in
/-- The two ways in which corresponding computations end. -/
theorem Meets.ends {r : EStateM.Result (Halt α) (Session α σ n) β}
    {r' : EStateM.Result (Halt α) (Session α σ n) γ} (h : Meets Q H r r') :
    (∃ v v' t t', r = .ok v t ∧ r' = .ok v' t' ∧ Q v v' t t') ∨
      ∃ halt t t', r = .error halt t ∧ r' = .error halt t' ∧ H t t' := by
  cases r with
  | ok v t =>
    cases r' with
    | ok v' t' => exact .inl ⟨v, v', t, t', rfl, rfl, h⟩
    | error _ _ => exact h.elim
  | error halt t =>
    cases r' with
    | ok _ _ => exact h.elim
    | error halt' t' =>
      obtain ⟨rfl, ht⟩ := h
      exact .inr ⟨halt, t, t', rfl, rfl, ht⟩

omit [Scalar α] in
theorem Meets.mono {Q' : β → γ → Session α σ n → Session α σ n → Prop}
    {H' : Session α σ n → Session α σ n → Prop}
    {r : EStateM.Result (Halt α) (Session α σ n) β} {r' : EStateM.Result (Halt α) (Session α σ n) γ}
    (h : Meets Q H r r') (hQ : ∀ v v' t t', Q v v' t t' → Q' v v' t t')
    (hH : ∀ t t', H t t' → H' t t') : Meets Q' H' r r' := by
  obtain ⟨v, v', t, t', rfl, rfl, hv⟩ | ⟨halt, t, t', rfl, rfl, ht⟩ := h.ends
  · exact hQ v v' t t' hv
  · exact ⟨rfl, hH t t' ht⟩

omit [Scalar α] in
theorem Meets.bind {a : Action α σ n β} {a' : Action α σ n γ} {f : β → Action α σ n β'}
    {f' : γ → Action α σ n γ'} (h : Meets Q H (a s) (a' s'))
    (hf : ∀ v v' t t', Q v v' t t' → Meets R H (f v t) (f' v' t')) :
    Meets R H ((a >>= f) s) ((a' >>= f') s') := by
  obtain ⟨v, v', t, t', hs, hs', hv⟩ | ⟨halt, t, t', hs, hs', ht⟩ := h.ends
  · rw [bind_ok hs, bind_ok hs']
    exact hf v v' t t' hv
  · rw [bind_error hs, bind_error hs']
    exact ⟨rfl, ht⟩

end

/-- From corresponding sessions the second action comes to what the first one does, in other units,
and what the sessions know of the Jacobian stays related. -/
def Echoes (E : Exchange α σ ν n) (T : Gear α n → Gear α n → Prop) (φ : β → γ)
    (a : Action α σ n β) (a' : Action α σ n γ) : Prop :=
  ∀ s s', Mirror E T s s' →
    Meets (fun v v' t t' => v' = φ v ∧ Mirror E T t t') (Mirror E T) (a s) (a' s')

namespace Echoes

theorem value {φ : β → γ} {v : β} {v' : γ} (h : v' = φ v) :
    Echoes E T φ (pure v : Action α σ n β) (pure v') := fun _ _ hs => ⟨h, hs⟩

theorem seq {φ : β → γ} {ψ : β' → γ'} {a : Action α σ n β} {a' : Action α σ n γ}
    {f : β → Action α σ n β'} {f' : γ → Action α σ n γ'} (ha : Echoes E T φ a a')
    (hf : ∀ v, Echoes E T ψ (f v) (f' (φ v))) : Echoes E T ψ (a >>= f) (a' >>= f') := by
  intro s s' h
  refine (ha s s' h).bind fun v v' t t' ⟨hv, ht⟩ => ?_
  subst hv
  exact hf v t t' ht

end Echoes

/-! ## Requests -/

omit [Scalar α] in
theorem filterMap_push (calls : Array (Call α n)) (call : Call α n) :
    (calls.push call).toList.filterMap Call.point? =
      calls.toList.filterMap Call.point? ++ call.point?.toList := by
  rw [Array.toList_push, List.filterMap_append]
  cases h : call.point? <;> simp [h]

/-- One more request to either model. -/
theorem Mirror.called (h : Mirror E T s s') (call call' : Call α n) {m m' : σ}
    (hpoint : call'.point? = call.point?) (hview : E.view m = E.view m') :
    Mirror E T { s with model := m, calls := s.calls.push call }
      { s' with model := m', calls := s'.calls.push call' } := by
  obtain ⟨new, hnew, hnew'⟩ := h.points
  refine ⟨h.core, h.gear, hview, new ++ call.point?.toList, ?_, ?_⟩
  · exact (filterMap_push s.calls call).trans (by rw [← List.append_assoc, ← hnew]; rfl)
  · rw [← List.append_assoc, ← hnew', ← hpoint]
    exact filterMap_push s'.calls call'

/-- What an evaluation comes to. -/
theorem evaluate_apply (P : Problem α σ n) (x : Vector α n) (s : Session α σ n) :
    evaluate P x s = match (P.model.evaluate x s.model).1 with
      | .error (.fatal reason) => .error (.fault (.modelFatal .evaluate reason)) (s.asked P x)
      | .error (.recoverable reason) => .ok (.error (.model reason)) (s.asked P x)
      | .ok f =>
        match f.findFinIdx? fun y => !isFinite y with
        | some i => .ok (.error (.illegalResidual i))
            { s.asked P x with notices := s.notices.push (.illegalResidual i f[i]) }
        | none => .ok (.ok f) { s.asked P x with bracket := noteSample P x f s.bracket } := by
  unfold evaluate
  rw [modify_bind_apply, ask_bind_apply]
  cases h : (P.model.evaluate x s.model).1 with
  | error failure =>
    simp only [Session.asked, h]
    cases failure <;> rfl
  | ok f =>
    simp only [settleAnswer, pure_bind_apply, Session.asked, h]
    cases hf : f.findFinIdx? fun y => !isFinite y with
    | some i => rfl
    | none =>
      dsimp only
      rw [bind_ok (recordSample_apply P x f _)]
      rfl

theorem noteSample_bracket (P : Problem α σ n) (x f : Vector α n) (b : Bracket α) :
    noteSample (E.problem P) x (E.units.residual f) (E.units.first.bracket b) =
      E.units.first.bracket (noteSample P x f b) := by
  have hoptions : (E.problem P).options = P.options := rfl
  unfold noteSample
  rw [hoptions, E.units.sampleOf_residual]
  split
  · cases sampleOf? x f with
    | none => rfl
    | some p => exact E.units.first.record_bracket b p
  · rfl

theorem allFinite_of_findFinIdx? {f : Vector α n} (h : f.findFinIdx? (fun y => !isFinite y) = none) :
    allFinite f = true := by
  rw [Vector.findFinIdx?_eq_none_iff] at h
  exact Vector.all_eq_true.2 fun i hi => by simpa using h f[i] (Vector.getElem_mem hi)

theorem findIllegal_none {f : Vector α n} (h : allFinite f = true) :
    f.findFinIdx? (fun y => !isFinite y) = none := by
  rw [Vector.findFinIdx?_eq_none_iff]
  intro y hy
  obtain ⟨i, hi, rfl⟩ := Vector.mem_iff_getElem.1 hy
  simp [Vector.all_eq_true.1 h i hi]

variable {P : Problem α σ n}

/-- The residual is the same in other units, wherever it is asked for. -/
theorem evaluate_meets (hP : Determined P.model E.view) (h : Mirror E T s s') (x : Vector α n) :
    Meets (fun v v' t t' => v' = v.map E.units.residual ∧ (∀ f, v = .ok f → allFinite f = true) ∧
        Mirror E T t t') (Mirror E T) (evaluate P x s) (evaluate (E.problem P) x s') := by
  have hanswer : ((E.problem P).model.evaluate x s'.model).1 =
      (P.model.evaluate x s.model).1.map E.units.residual :=
    congrArg (Except.map E.units.residual) ((hP.evaluate x).answer _ _ h.view).symm
  have hview : E.view (P.model.evaluate x s.model).2 = E.view (P.model.evaluate x s'.model).2 := by
    rw [(hP.evaluate x).keeps, (hP.evaluate x).keeps, h.view]
  have hasked : Mirror E T (s.asked P x) (s'.asked (E.problem P) x) := by
    have hcalled := h.called (.evaluate x (P.model.evaluate x s.model).1)
      (.evaluate x ((E.problem P).model.evaluate x s'.model).1) rfl hview
    exact ⟨hcalled.core, hcalled.gear, hcalled.view, hcalled.points⟩
  rw [evaluate_apply, evaluate_apply, hanswer]
  cases (P.model.evaluate x s.model).1 with
  | error failure =>
    cases failure with
    | fatal reason => exact ⟨rfl, hasked⟩
    | recoverable reason => exact ⟨rfl, nofun, hasked⟩
  | ok f =>
    simp only [Except.map, E.units.findIllegal_residual]
    cases hf : f.findFinIdx? fun y => !isFinite y with
    | some i => exact ⟨rfl, nofun, hasked.core, hasked.gear, hasked.view, hasked.points⟩
    | none =>
      refine ⟨rfl, fun g hg => ?_, ?_, hasked.gear, hasked.view, hasked.points⟩
      · cases hg
        exact allFinite_of_findFinIdx? hf
      · have hbracket := noteSample_bracket (E := E) P x f s.bracket
        rw [← h.bracket] at hbracket
        rw [hbracket]
        exact congrArg (fun c : Core α n => { c with
          bracket := E.units.first.bracket (noteSample P x f s.bracket) }) h.core

theorem evaluate_echoes (hP : Determined P.model E.view) (x : Vector α n) :
    Echoes E T (Except.map E.units.residual) (evaluate P x) (evaluate (E.problem P) x) :=
  fun _ _ h => (evaluate_meets hP h x).mono (fun _ _ _ _ ⟨hv, _, ht⟩ => ⟨hv, ht⟩) fun _ _ ht => ht

/-- A request for derivatives, or for anything else but the residual. -/
theorem request_echoes {δ : Type} {request : Answer σ δ} (hrequest : SeenBy E.view request)
    {φ : δ → δ} {request' : Answer σ δ}
    (hrequest' : ∀ m, request' m = ((request m).1.map φ, (request m).2)) (kind : Request)
    {record record' : Except EvalFailure δ → Call α n} (hrecord : ∀ a, (record a).point? = none)
    (hrecord' : ∀ a, (record' a).point? = none) :
    Echoes E T (Except.map φ) (ask request record >>= settleAnswer kind)
      (ask request' record' >>= settleAnswer kind) := by
  intro s s' h
  rw [ask_bind_apply, ask_bind_apply, hrequest', ← hrequest.answer _ _ h.view]
  have hview : E.view (request s.model).2 = E.view (request s'.model).2 := by
    rw [hrequest.keeps, hrequest.keeps, h.view]
  have hcalled := h.called (record (request s.model).1) (record' ((request s.model).1.map φ))
    (by rw [hrecord, hrecord']) hview
  cases hanswer : (request s.model).1 with
  | ok v =>
    rw [hanswer] at hcalled
    exact ⟨rfl, hcalled⟩
  | error failure =>
    rw [hanswer] at hcalled
    cases failure with
    | fatal reason => exact ⟨rfl, hcalled⟩
    | recoverable reason => exact ⟨rfl, hcalled⟩

theorem updateAuxiliary_echoes (hP : Determined P.model E.view) (x : Vector α n) :
    Echoes E T id (updateAuxiliary P x) (updateAuxiliary (E.problem P) x) := by
  intro s s' h
  unfold updateAuxiliary
  rw [ask_bind_apply, ask_bind_apply]
  have hanswer : ((E.problem P).model.evaluateAuxiliary x s'.model).1 =
      (P.model.evaluateAuxiliary x s.model).1 :=
    ((hP.evaluateAuxiliary x).answer _ _ h.view).symm
  have hview : E.view (P.model.evaluateAuxiliary x s.model).2 =
      E.view (P.model.evaluateAuxiliary x s'.model).2 := by
    rw [(hP.evaluateAuxiliary x).keeps, (hP.evaluateAuxiliary x).keeps, h.view]
  have hcalled := h.called (.evaluateAuxiliary x (P.model.evaluateAuxiliary x s.model).1)
    (.evaluateAuxiliary x (P.model.evaluateAuxiliary x s.model).1) rfl hview
  rw [hanswer]
  cases hcase : (P.model.evaluateAuxiliary x s.model).1 with
  | ok v =>
    rw [hcase] at hcalled
    exact ⟨rfl, hcalled⟩
  | error failure =>
    rw [hcase] at hcalled
    cases failure with
    | fatal reason => exact ⟨rfl, hcalled⟩
    | recoverable reason =>
      exact ⟨rfl, hcalled.core, hcalled.gear, hcalled.view, hcalled.points⟩

/-! ## Difference quotients -/

theorem oneSidedColumn_echoes (hP : Determined P.model E.view) (scale x f : Vector α n)
    (j : Fin n) :
    Echoes E T (Except.map E.units.residual) (oneSidedColumn P scale x f j)
      (oneSidedColumn (E.problem P) scale x (E.units.residual f) j) := by
  intro s s' h
  unfold oneSidedColumn
  rw [get_bind_apply, get_bind_apply, h.lower, h.upper]
  refine (evaluate_echoes hP _ s s' h).bind fun v v' t t' ⟨hv, ht⟩ => ?_
  subst hv
  cases v with
  | ok g => exact ⟨congrArg Except.ok (E.units.quotients_residual ..), ht⟩
  | error mishap =>
    refine (evaluate_echoes hP _ t t' ht).bind fun v v' u u' ⟨hv, hu⟩ => ?_
    subst hv
    cases v with
    | ok g => exact ⟨congrArg Except.ok (E.units.quotients_residual ..), hu⟩
    | error _ => exact ⟨rfl, hu⟩

theorem probeSide_echoes (hP : Determined P.model E.view) (x f : Vector α n) (j : Fin n)
    (room target width : α) :
    Echoes E T (Prod.map id E.units.residual) (probeSide P x f j room target width)
      (probeSide (E.problem P) x (E.units.residual f) j room target width) := by
  unfold probeSide
  split
  · refine (evaluate_echoes hP _).seq fun answer => ?_
    cases answer with
    | ok g =>
      refine Echoes.value ?_
      split <;> rfl
    | error _ => exact Echoes.value rfl
  · exact Echoes.value rfl

theorem twoSidedColumn_echoes (hP : Determined P.model E.view) (scale x f : Vector α n)
    (j : Fin n) :
    Echoes E T (Except.map E.units.residual) (twoSidedColumn P scale x f j)
      (twoSidedColumn (E.problem P) scale x (E.units.residual f) j) := by
  intro s s' h
  unfold twoSidedColumn
  rw [get_bind_apply, get_bind_apply, h.lower, h.upper]
  refine (probeSide_echoes hP x f j _ _ _ s s' h).bind fun right right' t t' ⟨hright, ht⟩ => ?_
  subst hright
  refine (probeSide_echoes hP x f j _ _ _ t t' ht).bind fun left left' u u' ⟨hleft, hu⟩ => ?_
  subst hleft
  dsimp only [Prod.map, id]
  split
  · exact ⟨rfl, hu⟩
  · exact ⟨congrArg Except.ok (E.units.quotients_residual ..), hu⟩

/-- A family of relations between what is known of the Jacobian, one for each pair of matrices that are
being filled, together with how the matrices are handed out. -/
structure Filling (E : Exchange α σ ν n) (T : Mat α n n → Mat α n n → Gear α n → Gear α n → Prop)
    (K : Gear α n → Gear α n → Prop) (publish : Mat α n n → Action α σ n Unit) : Prop where
  loosen : ∀ A A' g g', T A A' g g' → K g g'
  publish : ∀ A A' B B' s s', Mirror E (T A A') s s' →
    Meets (fun _ _ => Mirror E (T B B')) (Mirror E K) (publish B s) (publish B' s')

/-- The columns of two matrices correspond, but for those that are still to be filled. -/
def Filled (U : UnitChange α n) (left : List (Fin n)) (A A' : Mat α n n) : Prop :=
  ∀ i j : Fin n, j ∉ left → A'[i][j] = (U.grow i).map A[i][j]

theorem Filled.matrix {U : UnitChange α n} {A A' : Mat α n n} (h : Filled U [] A A') :
    A' = U.matrix A := by
  ext i hi j hj
  simpa using h ⟨i, hi⟩ ⟨j, hj⟩ List.not_mem_nil

theorem Filled.setColumn {U : UnitChange α n} {j : Fin n} {rest : List (Fin n)} {A A' : Mat α n n}
    (h : Filled U (j :: rest) A A') (c : Vector α n) :
    Filled U rest (A.setColumn j c) (A'.setColumn j (U.residual c)) := by
  intro i k hk
  have hrow : ∀ B : Mat α n n, ∀ d : Vector α n, (B.setColumn j d)[i][k] =
      if j = k then d[i] else B[i][k] := by
    intro B d
    simp [Mat.setColumn, Vector.getElem_set, Fin.ext_iff]
  rw [hrow, hrow]
  split
  · simp
  · next hjk => exact h i k (by simp [hk, Ne.symm hjk])

/-- Matrices that are filled column by column correspond in the end. -/
theorem fillColumns_meets {T : Mat α n n → Mat α n n → Gear α n → Gear α n → Prop}
    {K : Gear α n → Gear α n → Prop} {publish : Mat α n n → Action α σ n Unit}
    (hT : Filling E T K publish)
    {column column' : Fin n → Action α σ n (Except Mishap (Vector α n))}
    (hcolumn : ∀ A A' j, Echoes E (T A A') (Except.map E.units.residual) (column j) (column' j))
    {left : List (Fin n)} {A A' : Mat α n n} (hA : Filled E.units left A A')
    (h : Mirror E (T A A') s s') :
    Meets (fun v v' t t' => v' = v.map E.units.matrix ∧ Mirror E K t t' ∧
        ∀ B, v = .ok B → Mirror E (T B (E.units.matrix B)) t t')
      (Mirror E K) (fillColumns column publish left A s) (fillColumns column' publish left A' s') := by
  have loosen : ∀ {A A' t t'}, Mirror E (T A A') t t' → Mirror E K t t' :=
    fun ht => ht.mono (hT.loosen _ _ _ _)
  induction left generalizing A A' s s' with
  | nil =>
    refine ⟨congrArg Except.ok hA.matrix, loosen h, fun B hB => ?_⟩
    cases hB
    rw [← hA.matrix]
    exact h
  | cons j rest ih =>
    have hnext := ((hcolumn A A' j) s s' h).mono (fun _ _ _ _ hv => hv) fun _ _ ht => loosen ht
    refine hnext.bind fun v v' t t' ⟨hv, ht⟩ => ?_
    subst hv
    cases v with
    | error mishap => exact ⟨rfl, loosen ht, nofun⟩
    | ok c =>
      refine (hT.publish A A' _ _ t t' ht).bind fun _ _ u u' hu => ?_
      exact ih (hA.setColumn c) hu

theorem filled_all (U : UnitChange α n) (A A' : Mat α n n) : Filled U (List.finRange n) A A' :=
  fun _ j hj => absurd (List.mem_finRange j) hj

theorem differences_meets {T : Mat α n n → Mat α n n → Gear α n → Gear α n → Prop}
    {K : Gear α n → Gear α n → Prop} {publish : Mat α n n → Action α σ n Unit}
    (hT : Filling E T K publish) (hP : Determined P.model E.view) (scale : Vector α n)
    (twoSided : Fin n → Bool) (x f : Vector α n) {A A' : Mat α n n}
    (h : Mirror E (T A A') s s') :
    Meets (fun v v' t t' => v' = v.map E.units.matrix ∧ Mirror E K t t' ∧
        ∀ B, v = .ok B → Mirror E (T B (E.units.matrix B)) t t')
      (Mirror E K) (differences P scale twoSided x f publish A s)
      (differences (E.problem P) scale twoSided x (E.units.residual f) publish A' s') := by
  refine fillColumns_meets hT (fun A A' j => ?_) (filled_all E.units A A') h
  split
  · exact twoSidedColumn_echoes hP scale x f j
  · exact oneSidedColumn_echoes hP scale x f j

/-! ### By groups of columns -/

omit [Scalar α] in
theorem mem_placeFirstFit {ι : Type} {clash : ι → ι → Bool} {x j : ι} {groups : List (List ι)} :
    j ∈ (placeFirstFit clash x groups).flatten ↔ j = x ∨ j ∈ groups.flatten := by
  induction groups with
  | nil => simp [placeFirstFit]
  | cons group rest ih =>
    unfold placeFirstFit
    split
    · simp only [List.flatten_cons, List.mem_append, ih]
      exact or_left_comm
    · simp only [List.flatten_cons, List.mem_append, List.mem_singleton]
      exact ⟨fun h => h.elim (fun h => h.elim (.inr ∘ .inl) .inl) (.inr ∘ .inr),
        fun h => h.elim (.inl ∘ .inr) fun h => h.elim (.inl ∘ .inl) .inr⟩

omit [Scalar α] in
theorem mem_firstFit {ι : Type} {clash : ι → ι → Bool} {xs : List ι} {j : ι} :
    j ∈ (firstFit clash xs).flatten ↔ j ∈ xs := by
  have fold : ∀ groups : List (List ι),
      j ∈ (xs.foldl (fun groups x => placeFirstFit clash x groups) groups).flatten ↔
        j ∈ xs ∨ j ∈ groups.flatten := by
    induction xs with
    | nil => simp
    | cons x xs ih =>
      intro groups
      rw [List.foldl_cons, ih, mem_placeFirstFit, List.mem_cons, or_left_comm, or_assoc]
  simpa [firstFit] using fold []

/-- Every column is in a group. -/
theorem filled_groups (U : UnitChange α n) (pattern : Pattern n n) (A A' : Mat α n n) :
    Filled U pattern.groups.flatten A A' :=
  fun _ j hj => absurd (mem_firstFit.2 (List.mem_finRange j)) hj

theorem Filled.setColumns {U : UnitChange α n} {group left : List (Fin n)} {A A' : Mat α n n}
    (h : Filled U (group ++ left) A A') (c : Fin n → Vector α n) :
    Filled U left (group.foldl (fun A j => A.setColumn j (c j)) A)
      (group.foldl (fun A j => A.setColumn j (U.residual (c j))) A') := by
  induction group generalizing A A' with
  | nil => exact h
  | cons j rest ih => exact ih (h.setColumn (c j))

theorem compressedDifferences_meets {T : Mat α n n → Mat α n n → Gear α n → Gear α n → Prop}
    {K : Gear α n → Gear α n → Prop} {publish : Mat α n n → Action α σ n Unit}
    (hT : Filling E T K publish) (hP : Determined P.model E.view) (scale : Vector α n)
    (pattern : Pattern n n) (x f : Vector α n) {groups : List (List (Fin n))} {A A' : Mat α n n}
    (hA : Filled E.units groups.flatten A A') (h : Mirror E (T A A') s s') :
    Meets (fun v v' t t' => v' = v.map E.units.matrix ∧ Mirror E K t t' ∧
        ∀ B, v = .ok B → Mirror E (T B (E.units.matrix B)) t t')
      (Mirror E K) (compressedDifferences P scale pattern x f publish groups A s)
      (compressedDifferences (E.problem P) scale pattern x (E.units.residual f) publish groups A'
        s') := by
  have loosen : ∀ {A A' t t'}, Mirror E (T A A') t t' → Mirror E K t t' :=
    fun ht => ht.mono (hT.loosen _ _ _ _)
  induction groups generalizing A A' s s' with
  | nil =>
    refine ⟨congrArg Except.ok hA.matrix, loosen h, fun B hB => ?_⟩
    cases hB
    rw [← hA.matrix]
    exact h
  | cons group rest ih =>
    unfold compressedDifferences
    rw [get_bind_apply, get_bind_apply]
    have hpoint : groupPoint (E.problem P) s' scale x group = groupPoint P s scale x group := by
      unfold groupPoint
      rw [h.lower, h.upper]
      rfl
    rw [hpoint]
    have hnext := (evaluate_echoes hP (groupPoint P s scale x group) s s' h).mono
      (fun _ _ _ _ hv => hv) fun _ _ ht => loosen ht
    refine hnext.bind fun v v' t t' ⟨hv, ht⟩ => ?_
    subst hv
    cases v with
    | error mishap => exact ⟨rfl, loosen ht, nofun⟩
    | ok g =>
      simp only [Except.map, E.units.groupColumn_residual]
      refine (hT.publish A A' _ _ t t' ht).bind fun _ _ u u' hu => ?_
      exact ih (hA.setColumns _) hu

end

end AlgebraicLoop
