import AlgebraicLoop.Proofs.Binary64Laws
import AlgebraicLoop.Proofs.Nominals
import AlgebraicLoop.Proofs.Phases

/-!
# Fatal answers

A fatal answer of the model ends the solve it is given in: no request follows it, and the solve comes
to that answer. What else a solve can come to is a success, the report that it did not converge, or
one of few exceptions that are named here.

* `Call.fatal?`: the fatal answer to a call;
* `Calm`, `Aborted`: the sessions that a part of a solve leaves when it comes to its end, and when it
  was ended by a fatal answer;
* `Ends`: every way in which a solve of a started block fails;
* `solve_fatal_last`: a solve that was given a fatal answer.
-/

namespace AlgebraicLoop
set_option autoImplicit false

/-! ## Fatal answers -/

/-- The request and the reason of an answer that is fatal. -/
def fatalAnswer? {β : Type} (request : Request) : Except EvalFailure β → Option (Request × String)
  | .error (.fatal reason) => some (request, reason)
  | .error (.recoverable _) | .ok _ => none

/-- The request and the reason of a call whose answer was fatal. -/
def Call.fatal? {α : Type} {n : Nat} : Call α n → Option (Request × String)
  | .start answer => fatalAnswer? .start answer
  | .evaluate _ answer => fatalAnswer? .evaluate answer
  | .evaluateAuxiliary _ answer => fatalAnswer? .evaluateAuxiliary answer
  | .writeBack _ answer => fatalAnswer? .writeBack answer
  | .jacobian _ answer => fatalAnswer? .differentiate answer
  | .directional _ _ answer => fatalAnswer? .differentiate answer

section
variable {α σ : Type} {n : Nat}

/-- What a session has from the start values of its model. -/
def Session.given (s : Session α σ n) : Vector α n × Vector α n × Vector α n :=
  (s.lower, s.upper, s.nominal)

/-- A session that follows on another one without a fatal answer. -/
structure Calm (s t : Session α σ n) : Prop where
  calls : t.calls.toList = s.calls.toList ++ callsSince s t
  harmless : ∀ c ∈ callsSince s t, c.fatal? = none
  given : t.given = s.given

/-- A session that follows on another one up to a fatal answer, which is how the action halts. -/
structure Aborted (s t : Session α σ n) (halt : Halt α) : Prop where
  calls : t.calls.toList = s.calls.toList ++ callsSince s t
  last : ∃ (before : List (Call α n)) (c : Call α n) (request : Request) (reason : String),
    callsSince s t = before ++ [c] ∧ (∀ d ∈ before, d.fatal? = none) ∧
      c.fatal? = some (request, reason) ∧ halt = .fault (.modelFatal request reason)

/-- An action without fatal answers, or with one at its end. -/
def Orderly {β : Type} (a : Action α σ n β) : Prop :=
  ∀ s, After a s (fun _ t => Calm s t) fun halt t => Aborted s t halt

namespace Calm
variable {s t u : Session α σ n}

theorem of_eq (hcalls : t.calls = s.calls) (hgiven : t.given = s.given) : Calm s t := by
  have new : t.calls.toList = s.calls.toList ++ [] := by rw [hcalls, List.append_nil]
  refine ⟨?_, fun c hc => ?_, hgiven⟩
  · rw [callsSince_of_eq new, new]
  · rw [callsSince_of_eq new] at hc
    cases hc

theorem refl (s : Session α σ n) : Calm s s := of_eq rfl rfl

theorem of_call {c : Call α n} (hcalls : t.calls = s.calls.push c) (hc : c.fatal? = none)
    (hgiven : t.given = s.given) : Calm s t := by
  have new : t.calls.toList = s.calls.toList ++ [c] := by rw [hcalls, Array.toList_push]
  refine ⟨?_, fun d hd => ?_, hgiven⟩
  · rw [callsSince_of_eq new, new]
  · rw [callsSince_of_eq new] at hd
    rw [List.mem_singleton.1 hd]
    exact hc

theorem since (hst : Calm s t) (hcalls : u.calls.toList = t.calls.toList ++ callsSince t u) :
    callsSince s u = callsSince s t ++ callsSince t u := callsSince_trans hst.calls hcalls

theorem follow (hst : Calm s t) (hcalls : u.calls.toList = t.calls.toList ++ callsSince t u) :
    u.calls.toList = s.calls.toList ++ callsSince s u := by
  rw [hst.since hcalls, hcalls, hst.calls, List.append_assoc]

theorem trans (hst : Calm s t) (htu : Calm t u) : Calm s u := by
  refine ⟨hst.follow htu.calls, fun c hc => ?_, htu.given.trans hst.given⟩
  rw [hst.since htu.calls] at hc
  obtain hc | hc := List.mem_append.1 hc
  · exact hst.harmless c hc
  · exact htu.harmless c hc

theorem aborted {halt : Halt α} (hst : Calm s t) (htu : Aborted t u halt) : Aborted s u halt := by
  obtain ⟨before, c, request, reason, hsince, hbefore, hc, hhalt⟩ := htu.last
  refine ⟨hst.follow htu.calls, callsSince s t ++ before, c, request, reason, ?_, ?_, hc, hhalt⟩
  · rw [hst.since htu.calls, hsince, List.append_assoc]
  · intro d hd
    obtain hd | hd := List.mem_append.1 hd
    · exact hst.harmless d hd
    · exact hbefore d hd

end Calm

theorem Aborted.of_call {s t : Session α σ n} {c : Call α n} {request : Request} {reason : String}
    (hcalls : t.calls = s.calls.push c) (hc : c.fatal? = some (request, reason)) :
    Aborted s t (.fault (.modelFatal request reason)) := by
  have new : t.calls.toList = s.calls.toList ++ [c] := by rw [hcalls, Array.toList_push]
  refine ⟨?_, [], c, request, reason, callsSince_of_eq new, fun d hd => ?_, hc, rfl⟩
  · rw [callsSince_of_eq new, new]
  · cases hd

theorem Orderly.bind {β γ : Type} {a : Action α σ n β} {f : β → Action α σ n γ} (ha : Orderly a)
    (hf : ∀ v, Orderly (f v)) : Orderly (a >>= f) := by
  intro s
  rw [after_bind]
  refine (ha s).mono (fun v t _ hst => ?_) fun _ _ _ h => h
  exact (hf v t).mono (fun _ _ _ htu => hst.trans htu) fun _ _ _ htu => hst.aborted htu

theorem orderly_pure {β : Type} (v : β) : Orderly (pure v : Action α σ n β) := fun s => Calm.refl s

theorem orderly_get {β : Type} {f : Session α σ n → Action α σ n β} (hf : ∀ s, Orderly (f s)) :
    Orderly (get >>= f) := fun s => hf s s

theorem orderly_modify {g : Session α σ n → Session α σ n} (hcalls : ∀ s, (g s).calls = s.calls)
    (hgiven : ∀ s, (g s).given = s.given) : Orderly (modify g : Action α σ n Unit) :=
  fun s => Calm.of_eq (hcalls s) (hgiven s)

/-! ## Every part of a solve -/

theorem orderly_request {β : Type} (request : Answer σ β) (kind : Request)
    (record : Except EvalFailure β → Call α n)
    (hrecord : ∀ answer, (record answer).fatal? = fatalAnswer? kind answer) :
    Orderly (ask request record >>= settleAnswer kind) := by
  intro s
  refine after_request (fun reason h => ?_) (fun reason h => ?_) fun v h => ?_
  · refine Aborted.of_call rfl ?_
    rw [hrecord, h]
    rfl
  · refine Calm.of_call rfl ?_ rfl
    rw [hrecord, h]
    rfl
  · refine Calm.of_call rfl ?_ rfl
    rw [hrecord, h]
    rfl

theorem orderly_updateAuxiliary (P : Problem α σ n) (x : Vector α n) :
    Orderly (updateAuxiliary P x) := by
  intro s
  refine after_updateAuxiliary (fun reason h => ?_) (fun reason h => ?_) fun h => ?_
  · refine Aborted.of_call rfl ?_
    rw [h]
    rfl
  · refine Calm.of_call rfl ?_ rfl
    rw [h]
    rfl
  · refine Calm.of_call rfl ?_ rfl
    rw [h]
    rfl

variable [Scalar α]

/-- Between the two sessions the residual at `x` was asked for and was not defined, or not finite. -/
def Undefined (s t : Session α σ n) (x : Vector α n) : Prop :=
  ∃ answer, .evaluate x answer ∈ callsSince s t ∧ ∀ f, answer = .ok f → allFinite f = false

theorem Undefined.of_call {s t : Session α σ n} {x : Vector α n}
    {answer : Except EvalFailure (Vector α n)} (hcalls : t.calls = s.calls.push (.evaluate x answer))
    (h : ∀ f, answer = .ok f → allFinite f = false) : Undefined s t x := by
  have new : t.calls.toList = s.calls.toList ++ [.evaluate x answer] := by
    rw [hcalls, Array.toList_push]
  refine ⟨answer, ?_, h⟩
  rw [callsSince_of_eq new]
  exact List.mem_singleton.2 rfl

/-- An evaluation is a mishap only where the residual is undefined. -/
theorem evaluate_after (P : Problem α σ n) (x : Vector α n) (s : Session α σ n) :
    After (evaluate P x) s
      (fun answer t => Calm s t ∧ (answer.toOption = none → Undefined s t x))
      fun halt t => Aborted s t halt := by
  refine after_evaluate (fun reason h => ?_) (fun reason h => ?_) (fun f i h hi => ?_)
    fun f h _ => ?_
  · refine Aborted.of_call rfl ?_
    rw [h]
    rfl
  · refine ⟨Calm.of_call rfl ?_ rfl, fun _ => Undefined.of_call rfl ?_⟩
    · rw [h]
      rfl
    · intro f hf
      rw [h] at hf
      cases hf
  · refine ⟨Calm.of_call rfl ?_ rfl, fun _ => Undefined.of_call rfl ?_⟩
    · rw [h]
      rfl
    · intro g hg
      rw [h] at hg
      cases hg
      exact hi
  · refine ⟨Calm.of_call rfl ?_ rfl, fun hnone => by cases hnone⟩
    rw [h]
    rfl

theorem orderly_evaluate (P : Problem α σ n) (x : Vector α n) : Orderly (evaluate P x) :=
  fun s => (evaluate_after P x s).mono (fun _ _ _ h => h.1) fun _ _ _ h => h

/-- Every part of a solve that keeps what the start values gave is orderly. -/
theorem closed_orderly (P : Problem α σ n) (past : Bool) {γ : Type} {keep : Session α σ n → γ}
    (part : γ → Vector α n × Vector α n × Vector α n) (h : ∀ s, s.given = part (keep s)) :
    Closed P past keep fun _ a => Orderly a where
  value v := orderly_pure v
  seq ha hf := ha.bind hf
  read _ hf := orderly_get hf
  residualNominals _ hf := orderly_get hf
  update hg := orderly_modify (fun s => congrArg Ledger.calls (hg.silent s))
    fun s => by rw [h, h, hg.keeps s]
  notice _ := orderly_modify (fun _ => rfl) fun _ => rfl
  residual x := orderly_evaluate P x
  written _ _ _ _ hstore s := hstore _ s
  jacobian _ _ _ _ := orderly_request _ _ _ fun _ => rfl
  directional _ _ _ _ := orderly_request _ _ _ fun _ => rfl
  auxiliary x := orderly_updateAuxiliary P x
  limit _ _ _ := Calm.of_eq rfl rfl

theorem setting_orderly (P : Problem α σ n) :
    Closed P true (Session.setting P) fun _ a => Orderly a :=
  closed_orderly P true (fun p => (p.lower, p.upper, p.nominal)) fun _ => rfl

/-! ## The ends of a solve -/

/-- The residual was undefined where the first solve of a block began, and also at the nominal
values, unless the options do not allow to start from there. -/
def NowhereDefined (P : Problem α σ n) (first : Bool) (x : Vector α n) (s t : Session α σ n) :
    Prop :=
  P.options.method = .damped ∧ first = true ∧ Undefined s t x ∧
    (P.options.nominalFallback = true → ∃ y,
      nominalGuess? s.nominal s.lower s.upper P.options.enforceBounds = some y ∧ Undefined s t y)

/-- The nominal values were to be confined to bounds that are out of order. -/
def OutOfOrder (P : Problem α σ n) (s : Session α σ n) : Prop :=
  P.options.method = .damped ∧ P.options.nominalFallback = true ∧
    P.options.enforceBounds = true ∧ ∃ i : Fin n, ¬ s.lower[i] ≤ s.upper[i]

/-- The ways in which a solve of a started block fails that began in `s` at the point `x`, and was
the first one or not. -/
inductive Ends (P : Problem α σ n) (first : Bool) (x : Vector α n) (s t : Session α σ n) :
    Halt α → Prop where
  | aborted {halt : Halt α} : Aborted s t halt → Ends P first x s t halt
  /-- The model did not take over the final point. -/
  | refused (y : Vector α n) {reason : String} : Calm s t →
      .writeBack y (.error (.recoverable reason)) ∈ callsSince s t →
      Ends P first x s t (.fault (.modelFatal .writeBack reason))
  | undefined {mishap : Mishap} : Calm s t → NowhereDefined P first x s t →
      Ends P first x s t (.fault (.initialEvaluation mishap))
  | unconverged {details : Unconverged α} : Calm s t → ¬ OutOfOrder P s →
      Ends P first x s t (.fault (.unconverged details))
  | outOfOrder : Calm s t → OutOfOrder P s → Ends P first x s t .limitsOutOfOrder

theorem Undefined.since {s t u : Session α σ n} {x : Vector α n} (h : Undefined t u x)
    (hst : Calm s t) (htu : u.calls.toList = t.calls.toList ++ callsSince t u) :
    Undefined s u x := by
  obtain ⟨answer, hmem, hbad⟩ := h
  refine ⟨answer, ?_, hbad⟩
  rw [hst.since htu]
  exact List.mem_append_right _ hmem

theorem Undefined.later {s t u : Session α σ n} {x : Vector α n} (h : Undefined s t x)
    (hst : Calm s t) (htu : u.calls.toList = t.calls.toList ++ callsSince t u) :
    Undefined s u x := by
  obtain ⟨answer, hmem, hbad⟩ := h
  refine ⟨answer, ?_, hbad⟩
  rw [hst.since htu]
  exact List.mem_append_left _ hmem

theorem Calm.outOfOrder_iff {P : Problem α σ n} {s t : Session α σ n} (hst : Calm s t) :
    OutOfOrder P t ↔ OutOfOrder P s := by
  have hgiven := hst.given
  simp only [Session.given, Prod.mk.injEq] at hgiven
  unfold OutOfOrder
  rw [hgiven.1, hgiven.2.1]

/-- Where the nominal values could be confined, the bounds are in order. -/
theorem not_outOfOrder {P : Problem α σ n} {s : Session α σ n} {x : Vector α n}
    (h : nominalGuess? s.nominal s.lower s.upper P.options.enforceBounds = some x) :
    ¬ OutOfOrder P s := by
  rintro ⟨_, _, henforce, i, hi⟩
  have hstart := nominalGuess?_eq_some h i
  unfold nominalStart? clamp? at hstart
  rw [if_pos henforce, if_neg hi] at hstart
  cases hstart

/-- What ends a solve that goes on from a session ends the solve that led there. -/
theorem Ends.since {P : Problem α σ n} {first : Bool} {x : Vector α n} {s t u : Session α σ n}
    {halt : Halt α} (h : Ends P first x t u halt) (hst : Calm s t) : Ends P first x s u halt := by
  have hgiven := hst.given
  simp only [Session.given, Prod.mk.injEq] at hgiven
  obtain ⟨hlower, hupper, hnominal⟩ := hgiven
  cases h with
  | aborted h => exact .aborted (hst.aborted h)
  | refused y hcalm hmem =>
    refine .refused y (hst.trans hcalm) ?_
    rw [hst.since hcalm.calls]
    exact List.mem_append_right _ hmem
  | undefined hcalm h =>
    obtain ⟨hmethod, hfirst, hundefined, hguess⟩ := h
    refine .undefined (hst.trans hcalm) ⟨hmethod, hfirst, hundefined.since hst hcalm.calls,
      fun hfallback => ?_⟩
    obtain ⟨y, hy, hat⟩ := hguess hfallback
    rw [hnominal, hlower, hupper] at hy
    exact ⟨y, hy, hat.since hst hcalm.calls⟩
  | unconverged hcalm h => exact .unconverged (hst.trans hcalm) ((not_congr hst.outOfOrder_iff).1 h)
  | outOfOrder hcalm h => exact .outOfOrder (hst.trans hcalm) (hst.outOfOrder_iff.1 h)

/-- An action that is calm to its end, or ends the solve. -/
def Ended {β : Type} (P : Problem α σ n) (first : Bool) (x : Vector α n) (a : Action α σ n β) :
    Prop :=
  ∀ s, After a s (fun _ t => Calm s t) fun halt t => Ends P first x s t halt

theorem Orderly.ended {β : Type} {a : Action α σ n β} (h : Orderly a) (P : Problem α σ n)
    (first : Bool) (x : Vector α n) : Ended P first x a :=
  fun s => (h s).mono (fun _ _ _ h => h) fun _ _ _ h => .aborted h

theorem Ended.bind {β γ : Type} {P : Problem α σ n} {first : Bool} {x : Vector α n}
    {a : Action α σ n β} {f : β → Action α σ n γ} (ha : Ended P first x a)
    (hf : ∀ v, Ended P first x (f v)) : Ended P first x (a >>= f) := by
  intro s
  rw [after_bind]
  refine (ha s).mono (fun v t _ hst => ?_) fun _ _ _ h => h
  exact (hf v t).mono (fun _ _ _ htu => hst.trans htu) fun _ _ _ htu => htu.since hst

/-! ## The opening -/

theorem prelude_after (P : Problem α σ n) (s : Session α σ n) (hs : s.phase ≠ .untouched) :
    After (prelude P) s
      (fun _ t => Calm s t ∧ t.x = startingPoint P s ∧ t.work.ready = s.work.ready)
      fun halt t => Aborted s t halt := by
  have hsu : Calm s (s.begun P) := Calm.of_eq rfl rfl
  rw [after_congr (prelude_started P s hs)]
  split
  · refine (orderly_updateAuxiliary P _ (s.begun P)).mono (fun _ t ht hut => ?_)
      fun _ _ _ h => hsu.aborted h
    have hkeep := ((course_updateAuxiliary P _).ok ht).keeps
    exact ⟨hsu.trans hut, congrArg (fun p : Footing α n => p.x) hkeep,
      congrArg (fun p : Footing α n => p.ready) hkeep⟩
  · exact ⟨hsu, rfl, rfl⟩

theorem restartFromNominal_after (P : Problem α σ n) (s : Session α σ n) :
    After (restartFromNominal P) s
      (fun _ t => Calm s t ∧
        nominalGuess? s.nominal s.lower s.upper P.options.enforceBounds = some t.x)
      fun halt t => t = s ∧ halt = .limitsOutOfOrder ∧ P.options.enforceBounds = true ∧
        ∃ i : Fin n, ¬ s.lower[i] ≤ s.upper[i] :=
  after_restartFromNominal (fun _ hguess => ⟨Calm.of_eq rfl rfl, hguess⟩) fun hguess =>
    ⟨rfl, rfl, nominalGuess?_eq_none hguess⟩

theorem checkStartingPoint_after {P : Problem α σ n} (hmethod : P.options.method = .damped)
    (s : Session α σ n) :
    After (checkStartingPoint P) s (fun _ t => Calm s t)
      fun halt t => Ends P true s.x s t halt := by
  unfold checkStartingPoint
  change After (evaluate P s.x >>= _) s _ _
  rw [after_bind]
  refine (evaluate_after P s.x s).mono (fun answer t _ ht => ?_) fun _ _ _ h => .aborted h
  obtain ⟨hst, hundefined⟩ := ht
  cases answer with
  | ok _ => exact hst
  | error mishap =>
    have hat : Undefined s t s.x := hundefined rfl
    dsimp only
    split
    · next hfallback =>
      rw [after_bind]
      refine (restartFromNominal_after P t).mono (fun _ u _ hu => ?_) fun halt u _ hu => ?_
      · obtain ⟨htu, hguess⟩ := hu
        have hnotice : Calm u { u with notices := u.notices.push (.guessUndefined mishap) } :=
          Calm.of_eq rfl rfl
        have hsu := hst.trans (htu.trans hnotice)
        change After (evaluate P u.x >>= _) { u with notices := _ } _ _
        rw [after_bind]
        refine (evaluate_after P u.x _).mono (fun answer v _ hv => ?_)
          fun _ _ _ h => .aborted (hsu.aborted h)
        obtain ⟨huv, hundefined'⟩ := hv
        cases answer with
        | ok _ => exact hsu.trans huv
        | error mishap =>
          refine .undefined (hsu.trans huv) ⟨hmethod, rfl, ?_, fun _ => ⟨u.x, ?_, ?_⟩⟩
          · exact hat.later hst ((htu.trans hnotice).trans huv).calls
          · have hgiven := hst.given
            simp only [Session.given, Prod.mk.injEq] at hgiven
            rw [← hgiven.1, ← hgiven.2.1, ← hgiven.2.2]
            exact hguess
          · exact (hundefined' rfl).since hsu huv.calls
      · obtain ⟨rfl, rfl, henforce, hbounds⟩ := hu
        exact .outOfOrder hst (hst.outOfOrder_iff.1 ⟨hmethod, hfallback, henforce, hbounds⟩)
    · next hfallback => exact .undefined hst ⟨hmethod, rfl, hat, fun h => absurd h hfallback⟩

theorem orderly_updateResidualScales (P : Problem α σ n) : Orderly (updateResidualScales P) :=
  (setting_orderly P).stage.spot.updateResidualScales

theorem orderly_settlePoint (P : Problem α σ n) (first : Bool) : Orderly (settlePoint P first) := by
  refine Orderly.bind (orderly_modify (fun _ => rfl) fun _ => rfl) fun _ => ?_
  refine orderly_get fun s => ?_
  split
  · exact (orderly_updateResidualScales P).bind fun _ => orderly_pure _
  · exact orderly_pure _

theorem openSolve_after {P : Problem α σ n} (hmethod : P.options.method = .damped)
    (s : Session α σ n) :
    After (openSolve P) s (fun _ t => Calm s t)
      fun halt t => Ends P (!s.work.ready) s.x s t halt := by
  have settled : ∀ {first : Bool} {u : Session α σ n}, Calm s u →
      After (settlePoint P first) u (fun _ t => Calm s t)
        fun halt t => Ends P (!s.work.ready) s.x s t halt := fun {first u} hu =>
    ((orderly_settlePoint P first) u).mono (fun _ _ _ h => hu.trans h)
      fun _ _ _ h => .aborted (hu.aborted h)
  refine after_openSolve (fun hs => ?_) (fun _ _ => settled (Calm.of_eq rfl rfl))
    fun c _ => settled (Calm.of_eq rfl rfl)
  have hbegun : Calm s (s.derived P).emptied := Calm.of_eq rfl rfl
  refine After.bind ?_ fun _ u (hu : Calm s u) => settled hu
  rw [hs]
  exact (checkStartingPoint_after hmethod _).mono (fun _ _ _ h => hbegun.trans h)
    fun _ _ _ h => h.since hbegun

/-! ## The attempts and the close -/

theorem closeSolve_after (P : Problem α σ n) (first : Bool) (x : Vector α n)
    (standing : Standing α) (s : Session α σ n)
    (h : standing.attempt.failed = true → ¬ OutOfOrder P s) :
    After (closeSolve P standing) s (fun _ t => Calm s t)
      fun halt t => Ends P first x s t halt := by
  unfold closeSolve
  rw [after_bind]
  have hwrite : After (writeBack P) s (fun _ t => Calm s t)
      fun halt t => Ends P first x s t halt := by
    refine after_writeBack (fun reason h => ?_) (fun reason h => ?_) fun h => ?_
    · exact .aborted (Aborted.of_call rfl (by rw [h]; rfl))
    · refine .refused s.x (Calm.of_call rfl (by rw [h]; rfl) rfl) ?_
      rw [h, callsSince_of_eq Array.toList_push]
      exact List.mem_singleton.2 rfl
    · exact Calm.of_call rfl (by rw [h]; rfl) rfl
  refine hwrite.mono (fun _ t _ hst => ?_) fun _ _ _ h => h
  cases hfailure : standing.attempt.failure with
  | none => exact hst.trans (Calm.of_eq rfl rfl)
  | some reason =>
    have hfailed : standing.attempt.failed = true := by simp [Attempt.failed, hfailure]
    exact .unconverged (hst.trans (Calm.of_eq rfl rfl)) (h hfailed)

theorem Ends.of_eq {P : Problem α σ n} {first : Bool} {x : Vector α n} {s t u : Session α σ n}
    {halt : Halt α} (h : Ends P first x s t halt) (hcalls : u.calls = t.calls)
    (hgiven : u.given = t.given) : Ends P first x s u halt := by
  have hsince : callsSince s u = callsSince s t := by
    unfold callsSince
    rw [hcalls]
  have htu : Calm t u := Calm.of_eq hcalls hgiven
  cases h with
  | aborted h => exact .aborted ⟨by rw [hcalls, hsince]; exact h.calls, by rw [hsince]; exact h.last⟩
  | refused y hcalm hmem => exact .refused y (hcalm.trans htu) (by rw [hsince]; exact hmem)
  | undefined hcalm h =>
    obtain ⟨hmethod, hfirst, hundefined, hguess⟩ := h
    refine .undefined (hcalm.trans htu) ⟨hmethod, hfirst, hundefined.later hcalm htu.calls,
      fun hfallback => ?_⟩
    obtain ⟨y, hy, hat⟩ := hguess hfallback
    exact ⟨y, hy, hat.later hcalm htu.calls⟩
  | unconverged hcalm h => exact .unconverged (hcalm.trans htu) h
  | outOfOrder hcalm h => exact .outOfOrder (hcalm.trans htu) h

section
variable [LawfulScalar α]

theorem orderly_runDamped (P : Problem α σ n) (tol : Tolerances α) (descent : Bool) :
    Orderly (runDamped P tol descent) :=
  (setting_orderly P).stage.runDamped (setting_orderly P).lineSearch_of_lawful tol descent

/-- The last attempt and the close: without a success, bounds that are out of order are met. -/
theorem lastAttempt_ended {P : Problem α σ n} (hmethod : P.options.method = .damped)
    (first : Bool) (x : Vector α n) (standing : Standing α) :
    Ended P first x (do
      let standing ← tryNominal P standing
      closeSolve P standing) := by
  intro s
  unfold tryNominal
  split
  · next hfailed =>
    rw [after_bind, after_bind]
    refine (restartFromNominal_after P s).mono (fun _ t _ ht => ?_) fun halt t _ ht => ?_
    · obtain ⟨hst, hguess⟩ := ht
      have hrun : Orderly (do
          modifyWork fun w => { w with jacobianAtPoint := false }
          notify .nominalRetry
          let tol := P.options.firstTolerances n
          let attempt ← runDamped P tol false
          pure (⟨attempt, standing.report.add attempt, tol.step⟩ : Standing α)) := by
        refine Orderly.bind (orderly_modify (fun _ => rfl) fun _ => rfl) fun _ => ?_
        refine Orderly.bind (orderly_modify (fun _ => rfl) fun _ => rfl) fun _ => ?_
        exact (orderly_runDamped P _ _).bind fun _ => orderly_pure _
      refine (hrun t).mono (fun standing u _ htu => ?_) fun _ _ _ h => .aborted (hst.aborted h)
      have hsu := hst.trans htu
      have hclose := closeSolve_after P first x standing u fun _ =>
        (not_congr hsu.outOfOrder_iff).2 (not_outOfOrder hguess)
      exact hclose.mono (fun _ _ _ h => hsu.trans h) fun _ _ _ h => h.since hsu
    · obtain ⟨rfl, rfl, henforce, hbounds⟩ := ht
      exact .outOfOrder (Calm.refl t)
        ⟨hmethod, (Bool.and_eq_true_iff.1 hfailed).2, henforce, hbounds⟩
  · next hskipped =>
    refine closeSolve_after P first x standing s fun hfailed => ?_
    rintro ⟨_, hfallback, _⟩
    exact hskipped (by rw [hfailed, hfallback]; rfl)

theorem solveDamped_after {P : Problem α σ n} (hmethod : P.options.method = .damped)
    (s : Session α σ n) :
    After (solveDamped P) s (fun _ t => Calm s t)
      fun halt t => Ends P (!s.work.ready) s.x s t halt := by
  rw [solveDamped_eq, after_bind]
  refine (openSolve_after hmethod s).mono (fun first t _ hst => ?_) fun _ _ _ h => h
  have hC := setting_orderly P
  have hsearch := hC.lineSearch_of_lawful
  have rest : Ended P (!s.work.ready) s.x (afterOpening P first) := by
    refine ((hC.firstAttempt (fun _ hf => orderly_get hf) hsearch).ended P _ _).bind fun standing => ?_
    refine ((hC.stage.tryDescent hsearch standing).ended P _ _).bind fun standing => ?_
    refine ((hC.tryRescaled hsearch first standing).ended P _ _).bind fun standing => ?_
    exact lastAttempt_ended hmethod _ _ standing
  exact (rest t).mono (fun _ _ _ htu => hst.trans htu) fun _ _ _ htu => htu.since hst

omit [LawfulScalar α] in
theorem solveOnce_ended {P : Problem α σ n} (hmethod : P.options.method ≠ .damped) (first : Bool)
    (x : Vector α n) (run : Problem α σ n → Tolerances α → Action α σ n (Attempt α))
    (hrun : ∀ tol, Orderly (run P tol)) : Ended P first x (solveOnce P run) := by
  have hsetUp : Orderly (discard (setUp P) : Action α σ n Unit) := by
    intro s
    change After (setUp P >>= fun _ => pure ()) s _ _
    rw [after_bind]
    exact after_setUp (fun _ => Calm.refl s) fun _ => Calm.of_eq rfl rfl
  refine (hsetUp.ended P first x).bind fun _ => ?_
  refine Ended.bind (fun s => Calm.of_eq rfl rfl) fun _ => ?_
  refine ((hrun _).ended P first x).bind fun attempt => ?_
  exact fun s => closeSolve_after P first x _ s fun _ h => hmethod h.1

theorem solveByMethod_after (P : Problem α σ n) (s : Session α σ n) :
    After (solveByMethod P) s (fun _ t => Calm s t)
      fun halt t => Ends P (!s.work.ready) s.x s t halt := by
  have hC := (setting_orderly P).stage
  unfold solveByMethod
  split
  · next hmethod => exact solveDamped_after hmethod s
  · next hmethod =>
    exact solveOnce_ended (by rw [hmethod]; decide) _ _ runUndamped hC.runUndamped s
  · next hmethod => exact solveOnce_ended (by rw [hmethod]; decide) _ _ runDirect hC.runDirect s

/-- A solve of a started block is calm to its end, or ends in one of the ways that are named. -/
theorem solveAction_after (P : Problem α σ n) (s : Session α σ n) (hs : s.phase ≠ .untouched) :
    After (solveAction P) s (fun _ t => Calm s t)
      fun halt t => Ends P (!s.work.ready) (startingPoint P s) s t halt := by
  rw [solveAction_eq, after_bind]
  refine (prelude_after P s hs).mono (fun _ t _ ht => ?_) fun _ _ _ h => .aborted h
  obtain ⟨hst, hx, hready⟩ := ht
  have hsolve := solveByMethod_after P t
  rw [hx, hready] at hsolve
  rw [after_thenAlways]
  refine hsolve.mono (fun _ u _ hu => ?_) fun halt u _ hu => ?_
  · have hmarks : Calm u u.unmarked := Calm.of_eq rfl rfl
    exact hst.trans (hu.trans hmarks)
  · have hend : Ends P (!s.work.ready) (startingPoint P s) t u.unmarked halt :=
      Ends.of_eq hu rfl rfl
    exact hend.since hst

end

/-! ## The solve -/

omit [Scalar α] in
theorem Calm.not_fatal {s t : Session α σ n} (h : Calm s t) {before after : List (Call α n)}
    {c : Call α n} (hcalls : callsSince s t = before ++ c :: after) : c.fatal? = none :=
  h.harmless c (by rw [hcalls]; exact List.mem_append_right _ List.mem_cons_self)

omit [Scalar α] in
/-- A fatal call is the last one, and names the fault. -/
theorem Aborted.unique {s t : Session α σ n} {halt : Halt α} (h : Aborted s t halt)
    {before after : List (Call α n)} {c : Call α n} {request : Request} {reason : String}
    (hcalls : callsSince s t = before ++ c :: after) (hc : c.fatal? = some (request, reason)) :
    after = [] ∧ halt = .fault (.modelFatal request reason) := by
  obtain ⟨earlier, d, request', reason', hsince, hearlier, hd, hhalt⟩ := h.last
  rw [hsince] at hcalls
  obtain rfl | ⟨e, rest, rfl⟩ := List.eq_nil_or_concat after
  · obtain ⟨_, hdc⟩ := List.append_inj' hcalls rfl
    cases hdc
    rw [hd] at hc
    cases hc
    exact ⟨rfl, hhalt⟩
  · -- a call before the last one is not fatal
    have hlast : earlier ++ [d] = (before ++ c :: e) ++ [rest] := by
      rw [hcalls]
      simp
    obtain ⟨hbefore, _⟩ := List.append_inj' hlast rfl
    have hnone := hearlier c (by
      rw [hbefore]
      exact List.mem_append_right _ List.mem_cons_self)
    rw [hc] at hnone
    cases hnone

theorem Ends.fatal_last {P : Problem α σ n} {first : Bool} {x : Vector α n} {s t : Session α σ n}
    {halt : Halt α} (h : Ends P first x s t halt) {before after : List (Call α n)} {c : Call α n}
    {request : Request} {reason : String} (hcalls : callsSince s t = before ++ c :: after)
    (hc : c.fatal? = some (request, reason)) :
    after = [] ∧ halt = .fault (.modelFatal request reason) := by
  have calm : Calm s t → False := by
    intro hcalm
    rw [hcalm.not_fatal hcalls] at hc
    cases hc
  cases h with
  | aborted h => exact h.unique hcalls hc
  | refused _ hcalm _ => exact (calm hcalm).elim
  | undefined hcalm _ => exact (calm hcalm).elim
  | unconverged hcalm _ => exact (calm hcalm).elim
  | outOfOrder hcalm _ => exact (calm hcalm).elim

theorem Ends.fatal_fault {P : Problem α σ n} {first : Bool} {x : Vector α n}
    {s t : Session α σ n} {fault : Fault α} (h : Ends P first x s t (.fault fault))
    (hfatal : fault.isFatal = true) :
    (∃ c ∈ callsSince s t, c.fatal? ≠ none) ∨
      (∃ y failure, .writeBack y (.error failure) ∈ callsSince s t) ∨
      NowhereDefined P first x s t := by
  cases h with
  | aborted h =>
    obtain ⟨before, c, request, reason, hsince, _, hc, _⟩ := h.last
    refine .inl ⟨c, ?_, by rw [hc]; exact Option.some_ne_none _⟩
    rw [hsince]
    exact List.mem_append_right _ (List.mem_singleton.2 rfl)
  | refused _ _ hmem => exact .inr (.inl ⟨_, _, hmem⟩)
  | undefined _ h => exact .inr (.inr h)
  | unconverged _ _ => cases hfatal

/-- Where bounds are out of order that the nominal values would be confined to, a solve that fails
without a fault of the model finds them so. -/
theorem Ends.meets_outOfOrder {P : Problem α σ n} {first : Bool} {x : Vector α n}
    {s t : Session α σ n} {halt : Halt α} (h : Ends P first x s t halt) (ho : OutOfOrder P s) :
    (∃ request reason, halt = .fault (.modelFatal request reason)) ∨
      halt = .limitsOutOfOrder := by
  cases h with
  | aborted h =>
    obtain ⟨_, _, request, reason, _, _, _, hhalt⟩ := h.last
    exact .inl ⟨request, reason, hhalt⟩
  | refused _ _ _ => exact .inl ⟨_, _, rfl⟩
  | undefined _ h =>
    obtain ⟨y, hy, _⟩ := h.2.2.2 ho.2.1
    exact absurd ho (not_outOfOrder hy)
  | unconverged _ h => exact absurd ho h
  | outOfOrder _ _ => exact .inr rfl

/-- A fatal answer is the last one of its solve, and what the solve comes to. A solve of a started
block comes to a fatal fault only after a fatal answer, after a refused point, or when the first
residual is defined nowhere; and it finds limits out of order only where bounds are, where no solve
comes to the report that it did not converge. -/
theorem solve_fatal_last [LawfulScalar α] {b b' : Block α σ n}
    {result : Except (Halt α) (Report α)} (hstarted : b.session.phase ≠ .untouched)
    (h : b.solve = (result, b')) :
    (∀ (before after : List (Call α n)) (c : Call α n) (request : Request) (reason : String),
      callsSince b.session b'.session = before ++ c :: after →
      c.fatal? = some (request, reason) →
        after = [] ∧ result = .error (.fault (.modelFatal request reason))) ∧
    (∀ fault, result = .error (.fault fault) → fault.isFatal = true →
      (∃ c ∈ callsSince b.session b'.session, c.fatal? ≠ none) ∨
      (∃ x failure, .writeBack x (.error failure) ∈ callsSince b.session b'.session) ∨
      NowhereDefined b.problem (!b.session.work.ready) (startingPoint b.problem b.session)
        b.session b'.session) ∧
    (result = .error .limitsOutOfOrder → OutOfOrder b.problem b.session) ∧
    (OutOfOrder b.problem b.session →
      (∃ report, result = .ok report) ∨
      (∃ request reason, result = .error (.fault (.modelFatal request reason))) ∨
      result = .error .limitsOutOfOrder) := by
  have hafter := solveAction_after b.problem b.session hstarted
  unfold After at hafter
  unfold Block.solve Block.perform at h
  cases hrun : solveAction b.problem b.session with
  | ok report t =>
    rw [hrun] at hafter h
    cases h
    have hcalm : Calm b.session t := hafter
    refine ⟨?_, ?_, ?_, fun _ => .inl ⟨report, rfl⟩⟩
    · intro before after c request reason hcalls hc
      rw [hcalm.not_fatal hcalls] at hc
      cases hc
    · intro fault hresult
      cases hresult
    · intro hresult
      cases hresult
  | error halt t =>
    rw [hrun] at hafter h
    cases h
    have hends : Ends b.problem (!b.session.work.ready) (startingPoint b.problem b.session)
      b.session t halt := hafter
    refine ⟨?_, ?_, ?_, fun ho => .inr ?_⟩
    · intro before after c request reason hcalls hc
      obtain ⟨hlast, hhalt⟩ := hends.fatal_last hcalls hc
      exact ⟨hlast, congrArg Except.error hhalt⟩
    · intro fault hresult hfatal
      cases hresult
      exact hends.fatal_fault hfatal
    · intro hresult
      cases hresult
      cases hends with
      | aborted h =>
        obtain ⟨_, _, _, _, _, _, _, hhalt⟩ := h.last
        cases hhalt
      | outOfOrder _ h => exact h
    · obtain ⟨request, reason, hhalt⟩ | hhalt := hends.meets_outOfOrder ho
      · exact .inl ⟨request, reason, congrArg Except.error hhalt⟩
      · exact .inr (congrArg Except.error hhalt)

end

/-- A started block whose model cannot go on. -/
def lostBlock : Block Float Unit 1 :=
  ((Block.pointwise { Options.standard with enforceBounds := false } #v[1]
    fun _ => .error (.fatal "lost")).setPoint #[2]).2

theorem solve_fatal_last_lost :
    lostBlock.session.phase ≠ .untouched ∧
      callsSince lostBlock.session lostBlock.solve.2.session =
        [.evaluate #v[2] (.error (.fatal "lost"))] ∧
      lostBlock.solve.1 = .error (.fault (.modelFatal .evaluate "lost")) := by
  have hstarted : lostBlock.session.phase ≠ .untouched := by decide +kernel
  have hcalls : callsSince lostBlock.session lostBlock.solve.2.session =
      [.evaluate #v[2] (.error (.fatal "lost"))] := by rfl
  refine ⟨hstarted, hcalls, ?_⟩
  exact ((solve_fatal_last hstarted rfl).1 [] [] _ .evaluate "lost" hcalls rfl).2

end AlgebraicLoop
