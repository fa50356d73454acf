import AlgebraicLoop.Proofs.Attempts

/-!
# What a request and an attempt leave alone

A request to the model changes the state of the model and the records of the solve, and nothing else
of a session. An attempt changes more, but never what an operation set up before it; each of its
parts keeps a part of the session, and the smaller the part of the attempt, the more is kept.

* `evaluate_outcome`, `request_outcome`, `updateAuxiliary_outcome`: the ways in which a request ends;
* `after_evaluate`, `after_request`, `after_updateAuxiliary`, `after_writeBack`: the same for all that
  is said of both ends;
* `Course`: a session that follows on another one, with the same part kept;
* `closed_course`: every part of a solve leaves such a session.
-/

namespace AlgebraicLoop
set_option autoImplicit false

/-! ## Limited steps and the effects of earlier ones -/

section
variable {α : Type} [Scalar α] {n : Nat}

theorem Limiter.meetAll_blank (x : Vector α n) (minRatio : α) (k : Nat)
    (bounds : List (Bound α n)) (l : Limiter α n) :
    Limiter.meetAll x minRatio k (bounds.map fun b => { b with effect := .inactive }) l =
      Limiter.meetAll x minRatio k bounds l := by
  induction bounds generalizing k l with
  | nil => rfl
  | cons b rest ih =>
    simp only [List.map_cons, Limiter.meetAll]
    rw [ih]
    rfl

theorem Limiter.meet_fst (x : Vector α n) (minRatio : α) (l : Limiter α n) (k : Nat)
    (b : Bound α n) :
    ({ (l.meet x minRatio k b).1 with effect := .inactive } : Bound α n) =
      { b with effect := .inactive } := by
  unfold Limiter.meet
  dsimp only
  split
  · rfl
  · split
    · rfl
    · split
      · rfl
      · split <;> rfl

theorem Limiter.meetAll_fst (x : Vector α n) (minRatio : α) (k : Nat)
    (bounds : List (Bound α n)) (l : Limiter α n) :
    (Limiter.meetAll x minRatio k bounds l).1.map
        (fun b => ({ b with effect := .inactive } : Bound α n)) =
      bounds.map fun b => { b with effect := .inactive } := by
  induction bounds generalizing k l with
  | nil => rfl
  | cons b rest ih =>
    simp only [Limiter.meetAll, List.map_cons]
    rw [Limiter.meet_fst, ih]

theorem Box.limitStep_of_blank (box : Box α n) (x nominal step : Vector α n) (minRatio : α)
    (factor : Option α) :
    box.blank.limitStep x nominal step minRatio factor =
      box.limitStep x nominal step minRatio factor := by
  unfold Box.limitStep Box.blank
  rw [Limiter.meetAll_blank]

omit [Scalar α] in
theorem map_modify_effect (effect : BoundEffect) (k : Nat) (bounds : List (Bound α n)) :
    (bounds.modify k fun b => { b with effect }).map
        (fun b => ({ b with effect := .inactive } : Bound α n)) =
      bounds.map fun b => { b with effect := .inactive } := by
  induction bounds generalizing k with
  | nil => cases k <;> rfl
  | cons b rest ih =>
    cases k with
    | zero => rfl
    | succ k => simp only [List.modify_succ_cons, List.map_cons, ih]

theorem Box.blank_limitStep (box : Box α n) (x nominal step : Vector α n) (minRatio : α)
    (factor : Option α) :
    (box.limitStep x nominal step minRatio factor).1.blank = box.blank := by
  have met := Limiter.meetAll_fst x minRatio 0 box.bounds (Limiter.start step)
  unfold Box.limitStep Box.blank
  dsimp only
  split
  · rw [map_modify_effect, met]
  · rw [met]

end

/-! ## Requests -/

/-- The calls that were made between two sessions. -/
def callsSince {α σ : Type} {n : Nat} (s t : Session α σ n) : List (Call α n) :=
  t.calls.toList.drop s.calls.size

section
variable {α σ : Type} [Scalar α] {n : Nat}

/-- The session after the residual was asked for. -/
def Session.asked (P : Problem α σ n) (x : Vector α n) (s : Session α σ n) : Session α σ n :=
  { s with
    counters.residualEvaluations := s.counters.residualEvaluations + 1
    model := (P.model.evaluate x s.model).2
    calls := s.calls.push (.evaluate x (P.model.evaluate x s.model).1) }

/-- The bracket after a point was evaluated. -/
def noteSample (P : Problem α σ n) (x f : Vector α n) (b : Bracket α) : Bracket α :=
  if P.options.refineBracket then
    match sampleOf? x f with
    | some sample => b.record sample
    | none => b
  else b

theorem recordSample_apply (P : Problem α σ n) (x f : Vector α n) (s : Session α σ n) :
    recordSample P x f s = .ok () { s with bracket := noteSample P x f s.bracket } := by
  unfold recordSample noteSample
  split
  · cases sampleOf? x f <;> rfl
  · rfl

omit [Scalar α] in
theorem ask_bind_apply {β γ : Type} (request : Answer σ β)
    (record : Except EvalFailure β → Call α n) (f : Except EvalFailure β → Action α σ n γ)
    (s : Session α σ n) :
    (ask request record >>= f) s = f (request s.model).1
      { s with model := (request s.model).2, calls := s.calls.push (record (request s.model).1) } :=
  rfl

omit [Scalar α] in
theorem asked_calls {P : Problem α σ n} {x : Vector α n} {s : Session α σ n}
    {answer : Except EvalFailure (Vector α n)} (h : (P.model.evaluate x s.model).1 = answer) :
    (s.asked P x).calls = s.calls.push (.evaluate x answer) := by
  rw [Session.asked, h]

/-- An evaluation ends the action, or is a mishap, or gives a residual all of whose entries are
finite. -/
theorem evaluate_outcome (P : Problem α σ n) (x : Vector α n) (s : Session α σ n) :
    (∃ reason, (P.model.evaluate x s.model).1 = .error (.fatal reason) ∧
      evaluate P x s = .error (.fault (.modelFatal .evaluate reason)) (s.asked P x)) ∨
    (∃ reason, (P.model.evaluate x s.model).1 = .error (.recoverable reason) ∧
      evaluate P x s = .ok (.error (.model reason)) (s.asked P x)) ∨
    (∃ (f : Vector α n) (i : Fin n), (P.model.evaluate x s.model).1 = .ok f ∧
      allFinite f = false ∧ evaluate P x s = .ok (.error (.illegalResidual i))
        { s.asked P x with notices := s.notices.push (.illegalResidual i f[i]) }) ∨
    ∃ f, (P.model.evaluate x s.model).1 = .ok f ∧ allFinite f = true ∧
      evaluate P x s = .ok (.ok f)
        { s.asked P x with bracket := noteSample P x f s.bracket } := by
  unfold evaluate
  rw [modify_bind_apply, ask_bind_apply]
  cases h : (P.model.evaluate x s.model).1 with
  | error failure =>
    cases failure with
    | fatal reason =>
      refine .inl ⟨reason, rfl, ?_⟩
      simp only [Session.asked, h]
      rfl
    | recoverable reason =>
      refine .inr (.inl ⟨reason, rfl, ?_⟩)
      simp only [Session.asked, h]
      rfl
  | ok f =>
    cases hf : f.findFinIdx? fun y => !isFinite y with
    | some i =>
      refine .inr (.inr (.inl ⟨f, i, rfl, ?_, ?_⟩))
      · refine Bool.eq_false_iff.2 fun hfinite => ?_
        have hnone : f.findFinIdx? (fun y => !isFinite y) = none := by
          rw [Vector.findFinIdx?_eq_none_iff]
          intro y hy
          obtain ⟨j, hj, rfl⟩ := Vector.getElem_of_mem hy
          simpa using Vector.all_eq_true.1 hfinite j hj
        rw [hf] at hnone
        cases hnone
      · simp only [settleAnswer, pure_bind_apply, hf, Session.asked, h]
        rfl
    | none =>
      refine .inr (.inr (.inr ⟨f, rfl, ?_, ?_⟩))
      · rw [Vector.findFinIdx?_eq_none_iff] at hf
        refine Vector.all_eq_true.2 fun i hi => ?_
        simpa using hf f[i] (Vector.getElem_mem hi)
      · simp only [settleAnswer, pure_bind_apply, hf, Session.asked, h]
        rw [bind_ok (recordSample_apply P x f _)]
        rfl

omit [Scalar α] in
/-- A request for derivatives ends the action, or comes to what the model answered. -/
theorem request_outcome {β : Type} (request : Answer σ β) (kind : Request)
    (record : Except EvalFailure β → Call α n) (s : Session α σ n) :
    let t : Session α σ n :=
      { s with
        model := (request s.model).2
        calls := s.calls.push (record (request s.model).1) }
    (∃ reason, (request s.model).1 = .error (.fatal reason) ∧
      (ask request record >>= settleAnswer kind) s = .error (.fault (.modelFatal kind reason)) t) ∨
    (∃ reason, (request s.model).1 = .error (.recoverable reason) ∧
      (ask request record >>= settleAnswer kind) s = .ok (.error (.model reason)) t) ∨
    ∃ v, (request s.model).1 = .ok v ∧
      (ask request record >>= settleAnswer kind) s = .ok (.ok v) t := by
  dsimp only
  rw [ask_bind_apply]
  cases h : (request s.model).1 with
  | error failure =>
    cases failure with
    | fatal reason => exact .inl ⟨reason, rfl, rfl⟩
    | recoverable reason => exact .inr (.inl ⟨reason, rfl, rfl⟩)
  | ok v => exact .inr (.inr ⟨v, rfl, rfl⟩)

omit [Scalar α] in
/-- An update of the outputs ends the action, or comes to an end with at most a notice. -/
theorem updateAuxiliary_outcome (P : Problem α σ n) (x : Vector α n) (s : Session α σ n) :
    let answer := P.model.evaluateAuxiliary x s.model
    let t : Session α σ n :=
      { s with model := answer.2, calls := s.calls.push (.evaluateAuxiliary x answer.1) }
    (∃ reason, answer.1 = .error (.fatal reason) ∧
      updateAuxiliary P x s = .error (.fault (.modelFatal .evaluateAuxiliary reason)) t) ∨
    (∃ reason, answer.1 = .error (.recoverable reason) ∧
      updateAuxiliary P x s =
        .ok () { t with notices := t.notices.push (.auxiliaryNotUpdated reason) }) ∨
    answer.1 = .ok () ∧ updateAuxiliary P x s = .ok () t := by
  dsimp only
  unfold updateAuxiliary
  rw [ask_bind_apply]
  cases h : (P.model.evaluateAuxiliary x s.model).1 with
  | error failure =>
    cases failure with
    | fatal reason => exact .inl ⟨reason, rfl, rfl⟩
    | recoverable reason => exact .inr (.inl ⟨reason, rfl, rfl⟩)
  | ok v => exact .inr (.inr ⟨rfl, rfl⟩)

/-! ## Both ends of a request -/

/-- The session after a call that its model answered. -/
def Session.called (s : Session α σ n) (model : σ) (call : Call α n) : Session α σ n :=
  { s with model, calls := s.calls.push call }

section
variable {P : Problem α σ n} {x : Vector α n} {s : Session α σ n}
  {R : Session α σ n → Session α σ n → Prop} {H : Halt α → Session α σ n → Prop}

theorem after_evaluate {Q : Except Mishap (Vector α n) → Session α σ n → Prop}
    (fatal : ∀ reason, (P.model.evaluate x s.model).1 = .error (.fatal reason) →
      H (.fault (.modelFatal .evaluate reason)) (s.asked P x))
    (recoverable : ∀ reason, (P.model.evaluate x s.model).1 = .error (.recoverable reason) →
      Q (.error (.model reason)) (s.asked P x))
    (illegal : ∀ (f : Vector α n) (i : Fin n), (P.model.evaluate x s.model).1 = .ok f →
      allFinite f = false → Q (.error (.illegalResidual i))
        { s.asked P x with notices := s.notices.push (.illegalResidual i f[i]) })
    (defined : ∀ f, (P.model.evaluate x s.model).1 = .ok f → allFinite f = true →
      Q (.ok f) { s.asked P x with bracket := noteSample P x f s.bracket }) :
    After (evaluate P x) s Q H := by
  unfold After
  obtain ⟨reason, h, e⟩ | ⟨reason, h, e⟩ | ⟨f, i, h, hf, e⟩ | ⟨f, h, hf, e⟩ :=
    evaluate_outcome P x s
  all_goals rw [e]
  · exact fatal reason h
  · exact recoverable reason h
  · exact illegal f i h hf
  · exact defined f h hf

/-- However an evaluation ends, it has made its request, and at most gives a notice or moves the
bracket. -/
theorem follows_evaluate
    (h : ∀ s notices bracket, R s { s.asked P x with notices, bracket }) :
    Follows R (evaluate P x) := fun s =>
  after_evaluate (fun _ _ => h s _ _) (fun _ _ => h s _ _) (fun _ _ _ _ => h s _ _)
    fun _ _ _ => h s _ _

omit [Scalar α] in
theorem after_request {β : Type} {request : Answer σ β} {kind : Request}
    {record : Except EvalFailure β → Call α n} {Q : Except Mishap β → Session α σ n → Prop}
    (fatal : ∀ reason, (request s.model).1 = .error (.fatal reason) →
      H (.fault (.modelFatal kind reason))
        (s.called (request s.model).2 (record (request s.model).1)))
    (recoverable : ∀ reason, (request s.model).1 = .error (.recoverable reason) →
      Q (.error (.model reason)) (s.called (request s.model).2 (record (request s.model).1)))
    (answered : ∀ v, (request s.model).1 = .ok v →
      Q (.ok v) (s.called (request s.model).2 (record (request s.model).1))) :
    After (ask request record >>= settleAnswer kind) s Q H := by
  unfold After
  obtain ⟨reason, h, e⟩ | ⟨reason, h, e⟩ | ⟨v, h, e⟩ := request_outcome request kind record s
  all_goals rw [e]
  · exact fatal reason h
  · exact recoverable reason h
  · exact answered v h

omit [Scalar α] in
theorem follows_request {β : Type} {request : Answer σ β} {kind : Request}
    {record : Except EvalFailure β → Call α n}
    (h : ∀ s, R s (s.called (request s.model).2 (record (request s.model).1))) :
    Follows R (ask request record >>= settleAnswer kind) := fun s =>
  after_request (fun _ _ => h s) (fun _ _ => h s) fun _ _ => h s

omit [Scalar α] in
theorem after_updateAuxiliary {Q : Unit → Session α σ n → Prop}
    (fatal : ∀ reason, (P.model.evaluateAuxiliary x s.model).1 = .error (.fatal reason) →
      H (.fault (.modelFatal .evaluateAuxiliary reason))
        (s.called (P.model.evaluateAuxiliary x s.model).2
          (.evaluateAuxiliary x (P.model.evaluateAuxiliary x s.model).1)))
    (recoverable : ∀ reason,
      (P.model.evaluateAuxiliary x s.model).1 = .error (.recoverable reason) →
      Q () { s.called (P.model.evaluateAuxiliary x s.model).2
          (.evaluateAuxiliary x (P.model.evaluateAuxiliary x s.model).1) with
        notices := s.notices.push (.auxiliaryNotUpdated reason) })
    (answered : (P.model.evaluateAuxiliary x s.model).1 = .ok () →
      Q () (s.called (P.model.evaluateAuxiliary x s.model).2
        (.evaluateAuxiliary x (P.model.evaluateAuxiliary x s.model).1))) :
    After (updateAuxiliary P x) s Q H := by
  unfold After
  obtain ⟨reason, h, e⟩ | ⟨reason, h, e⟩ | ⟨h, e⟩ := updateAuxiliary_outcome P x s
  all_goals rw [e]
  · exact fatal reason h
  · exact recoverable reason h
  · exact answered h

omit [Scalar α] in
/-- However an update of the outputs ends, it has made its request, and at most gives a notice. -/
theorem follows_updateAuxiliary
    (h : ∀ s notices, R s { s.called (P.model.evaluateAuxiliary x s.model).2
      (.evaluateAuxiliary x (P.model.evaluateAuxiliary x s.model).1) with notices }) :
    Follows R (updateAuxiliary P x) := fun s =>
  after_updateAuxiliary (fun _ _ => h s _) (fun _ _ => h s _) fun _ => h s _

omit [Scalar α] in
/-- The model takes the point over, or the action ends. -/
theorem after_writeBack {Q : Unit → Session α σ n → Prop}
    (fatal : ∀ reason, (P.model.writeBack s.x s.model).1 = .error (.fatal reason) →
      H (.fault (.modelFatal .writeBack reason))
        (s.called (P.model.writeBack s.x s.model).2
          (.writeBack s.x (P.model.writeBack s.x s.model).1)))
    (recoverable : ∀ reason, (P.model.writeBack s.x s.model).1 = .error (.recoverable reason) →
      H (.fault (.modelFatal .writeBack reason))
        (s.called (P.model.writeBack s.x s.model).2
          (.writeBack s.x (P.model.writeBack s.x s.model).1)))
    (taken : (P.model.writeBack s.x s.model).1 = .ok () →
      Q () (s.called (P.model.writeBack s.x s.model).2
        (.writeBack s.x (P.model.writeBack s.x s.model).1))) :
    After (writeBack P) s Q H := by
  unfold writeBack
  rw [after_congr (get_bind_apply _ _), after_congr (ask_bind_apply _ _ _ _)]
  cases h : (P.model.writeBack s.x s.model).1 with
  | ok _ =>
    rw [h] at taken
    exact taken rfl
  | error failure =>
    cases failure with
    | fatal reason =>
      rw [h] at fatal
      exact fatal reason rfl
    | recoverable reason =>
      rw [h] at recoverable
      exact recoverable reason rfl

omit [Scalar α] in
theorem follows_writeBack
    (h : ∀ s, R s (s.called (P.model.writeBack s.x s.model).2
      (.writeBack s.x (P.model.writeBack s.x s.model).1))) :
    Follows R (writeBack P) := fun s =>
  after_writeBack (fun _ _ => h s) (fun _ _ => h s) fun _ => h s

end

/-- An evaluation makes one request. -/
theorem evaluate_calls (P : Problem α σ n) (x : Vector α n) :
    Follows (fun s t => ∃ answer, t.calls = s.calls.push (.evaluate x answer)) (evaluate P x) :=
  follows_evaluate fun _ _ _ => ⟨_, rfl⟩

/-! ## The course of a session -/

/-- Is the sample an end of the bracket? -/
def Bracket.Has (b : Bracket α) (p : Sample α) : Prop := b.below = some p ∨ b.above = some p

/-- The lower end has a value that is not positive, the upper end another one, and both ends are
finite. -/
structure Bracket.Sound (b : Bracket α) : Prop where
  below : ∀ p, b.below = some p → p.f ≤ 0
  above : ∀ p, b.above = some p → ¬ p.f ≤ 0
  proper : ∀ p, b.Has p → isFinite p.x = true ∧ isFinite p.f = true

omit [Scalar α] in
theorem Bracket.not_has_empty (p : Sample α) : ¬ ({} : Bracket α).Has p := by
  rintro (hp | hp)
  · cases hp
  · cases hp

theorem Bracket.sound_empty : ({} : Bracket α).Sound :=
  ⟨fun p hp => absurd (.inl hp) (not_has_empty p), fun p hp => absurd (.inr hp) (not_has_empty p),
    fun p hp => absurd hp (not_has_empty p)⟩

/-- Taking note of a point keeps the bracket, or makes the finite point one of its ends. -/
theorem Bracket.record_cases (b : Bracket α) (p : Sample α) :
    b.record p = b ∨ (isFinite p.x = true ∧ isFinite p.f = true) ∧
      (p.f ≤ 0 ∧ b.record p = { b with below := some p } ∨
        ¬ p.f ≤ 0 ∧ b.record p = { b with above := some p }) := by
  unfold Bracket.record
  split
  · exact .inl rfl
  · next hfinite =>
    have hfinite : isFinite p.x = true ∧ isFinite p.f = true := by simpa using hfinite
    split
    · next hle =>
      split
      · exact .inr ⟨hfinite, .inl ⟨hle, rfl⟩⟩
      · exact .inl rfl
    · next hle =>
      split
      · exact .inr ⟨hfinite, .inr ⟨hle, rfl⟩⟩
      · exact .inl rfl

theorem Bracket.has_record {b : Bracket α} {p q : Sample α} (h : (b.record p).Has q) :
    b.Has q ∨ (q = p ∧ isFinite p.x = true ∧ isFinite p.f = true) := by
  obtain e | ⟨hfinite, ⟨_, e⟩ | ⟨_, e⟩⟩ := b.record_cases p
  · rw [e] at h
    exact .inl h
  · rw [e] at h
    obtain h | h := h
    · exact .inr ⟨(Option.some.inj h).symm, hfinite⟩
    · exact .inl (.inr h)
  · rw [e] at h
    obtain h | h := h
    · exact .inl (.inl h)
    · exact .inr ⟨(Option.some.inj h).symm, hfinite⟩

theorem Bracket.Sound.record {b : Bracket α} (hb : b.Sound) (p : Sample α) :
    (b.record p).Sound := by
  have hproper : ∀ q, (b.record p).Has q → isFinite q.x = true ∧ isFinite q.f = true := by
    intro q hq
    obtain hq | ⟨rfl, hfinite⟩ := has_record hq
    · exact hb.proper q hq
    · exact hfinite
  obtain e | ⟨_, ⟨hle, e⟩ | ⟨hle, e⟩⟩ := b.record_cases p
  · rw [e]
    exact hb
  · refine ⟨fun q hq => ?_, fun q hq => ?_, hproper⟩
    · rw [e] at hq
      rw [← Option.some.inj hq]
      exact hle
    · rw [e] at hq
      exact hb.above q hq
  · refine ⟨fun q hq => ?_, fun q hq => ?_, hproper⟩
    · rw [e] at hq
      exact hb.below q hq
    · rw [e] at hq
      rw [← Option.some.inj hq]
      exact hle

/-- Between the two sessions the residual at `x` was found to be `f`, which is finite. -/
def Evaluated (s t : Session α σ n) (x f : Vector α n) : Prop :=
  .evaluate x (.ok f) ∈ callsSince s t ∧ allFinite f = true

/-- Between the two sessions the sample was taken. -/
def Sampled (s t : Session α σ n) (p : Sample α) : Prop :=
  ∃ x f, Evaluated s t x f ∧ sampleOf? x f = some p

/-- A session that follows on another: what was asked before stays on record, the bracket comes
from what was evaluated, and a given part is kept. -/
structure Course {γ : Type} (keep : Session α σ n → γ) (s t : Session α σ n) : Prop where
  calls : t.calls.toList = s.calls.toList ++ callsSince s t
  samples : ∀ p, t.bracket.Has p → s.bracket.Has p ∨ Sampled s t p
  sound : s.bracket.Sound → t.bracket.Sound
  keeps : keep t = keep s

omit [Scalar α] in
theorem callsSince_of_eq {s t : Session α σ n} {new : List (Call α n)}
    (h : t.calls.toList = s.calls.toList ++ new) : callsSince s t = new := by
  unfold callsSince
  rw [h, ← Array.length_toList, List.drop_left]

omit [Scalar α] in
theorem callsSince_trans {s t u : Session α σ n}
    (hst : t.calls.toList = s.calls.toList ++ callsSince s t)
    (htu : u.calls.toList = t.calls.toList ++ callsSince t u) :
    callsSince s u = callsSince s t ++ callsSince t u := by
  rw [hst, List.append_assoc] at htu
  exact callsSince_of_eq htu

theorem Evaluated.later {s t u : Session α σ n} {x f : Vector α n} (h : Evaluated s t x f)
    (hst : t.calls.toList = s.calls.toList ++ callsSince s t)
    (htu : u.calls.toList = t.calls.toList ++ callsSince t u) : Evaluated s u x f := by
  refine ⟨?_, h.2⟩
  rw [callsSince_trans hst htu]
  exact List.mem_append_left _ h.1

theorem Evaluated.earlier {s t u : Session α σ n} {x f : Vector α n} (h : Evaluated t u x f)
    (hst : t.calls.toList = s.calls.toList ++ callsSince s t)
    (htu : u.calls.toList = t.calls.toList ++ callsSince t u) : Evaluated s u x f := by
  refine ⟨?_, h.2⟩
  rw [callsSince_trans hst htu]
  exact List.mem_append_right _ h.1

namespace Course
variable {γ γ' : Type} {keep : Session α σ n → γ} {s t u : Session α σ n}

/-- A session that differs in neither calls nor bracket. -/
theorem of_eq (hcalls : t.calls = s.calls) (hbracket : t.bracket = s.bracket)
    (keeps : keep t = keep s) : Course keep s t := by
  have new : t.calls.toList = s.calls.toList ++ [] := by rw [hcalls, List.append_nil]
  refine ⟨?_, fun p hp => .inl (hbracket ▸ hp), fun hs => hbracket ▸ hs, keeps⟩
  rw [callsSince_of_eq new, new]

/-- A session with one more call and the same bracket. -/
theorem of_call {call : Call α n} (hcalls : t.calls = s.calls.push call)
    (hbracket : t.bracket = s.bracket) (keeps : keep t = keep s) : Course keep s t := by
  have new : t.calls.toList = s.calls.toList ++ [call] := by rw [hcalls, Array.toList_push]
  refine ⟨?_, fun p hp => .inl (hbracket ▸ hp), fun hs => hbracket ▸ hs, keeps⟩
  rw [callsSince_of_eq new, new]

theorem refl (keep : Session α σ n → γ) (s : Session α σ n) : Course keep s s :=
  of_eq rfl rfl rfl

theorem trans (hst : Course keep s t) (htu : Course keep t u) : Course keep s u := by
  refine ⟨?_, fun p hp => ?_, fun hs => htu.sound (hst.sound hs), htu.keeps.trans hst.keeps⟩
  · rw [callsSince_trans hst.calls htu.calls, ← List.append_assoc, ← hst.calls, ← htu.calls]
  · obtain hp | ⟨x, f, hf, hp⟩ := htu.samples p hp
    · obtain hp | ⟨x, f, hf, hp⟩ := hst.samples p hp
      · exact .inl hp
      · exact .inr ⟨x, f, hf.later hst.calls htu.calls, hp⟩
    · exact .inr ⟨x, f, hf.earlier hst.calls htu.calls, hp⟩

/-- What keeps more keeps less. -/
theorem coarser {keep' : Session α σ n → γ'} (h : Course keep' s t)
    (keeps : keep' t = keep' s → keep t = keep s) : Course keep s t :=
  ⟨h.calls, h.samples, h.sound, keeps h.keeps⟩

end Course

/-- A session that follows on another, whatever is kept. -/
abbrev Trail (s t : Session α σ n) : Prop := Course (fun _ => ()) s t

theorem Course.trail {γ : Type} {keep : Session α σ n → γ} {s t : Session α σ n}
    (h : Course keep s t) : Trail s t := h.coarser fun _ => rfl

theorem Course.point {P : Problem α σ n} {s t : Session α σ n}
    (h : Course (Session.footing P) s t) : t.x = s.x :=
  congrArg (fun p : Footing α n => p.x) h.keeps

/-- A defined residual is on record, and taken note of. -/
theorem course_defined (P : Problem α σ n) {x f : Vector α n} {s : Session α σ n}
    (h : (P.model.evaluate x s.model).1 = .ok f) (hf : allFinite f = true) :
    let t : Session α σ n := { s.asked P x with bracket := noteSample P x f s.bracket }
    Evaluated s t x f ∧ Course (Session.footing P) s t := by
  intro t
  have hcalls : t.calls = s.calls.push (.evaluate x (.ok f)) := asked_calls h
  have new : t.calls.toList = s.calls.toList ++ [.evaluate x (.ok f)] := by
    rw [hcalls, Array.toList_push]
  have evaluated : Evaluated s t x f := ⟨by rw [callsSince_of_eq new]; exact List.mem_singleton.2 rfl, hf⟩
  refine ⟨evaluated, ?_, fun p hp => ?_, fun hs => ?_, rfl⟩
  · rw [callsSince_of_eq new, new]
  · have hp : (noteSample P x f s.bracket).Has p := hp
    unfold noteSample at hp
    split at hp
    · split at hp
      · next sample hsample =>
        obtain hp | ⟨rfl, _⟩ := Bracket.has_record hp
        · exact .inl hp
        · exact .inr ⟨x, f, evaluated, hsample⟩
      · exact .inl hp
    · exact .inl hp
  · change (noteSample P x f s.bracket).Sound
    unfold noteSample
    split
    · split
      · exact hs.record _
      · exact hs
    · exact hs

theorem course_evaluate (P : Problem α σ n) (x : Vector α n) :
    Follows (Course (Session.footing P)) (evaluate P x) := fun _ =>
  after_evaluate (fun _ _ => Course.of_call rfl rfl rfl) (fun _ _ => Course.of_call rfl rfl rfl)
    (fun _ _ _ _ => Course.of_call rfl rfl rfl) fun _ h hf => (course_defined P h hf).2

theorem evaluated_of_ok {P : Problem α σ n} {x f : Vector α n} {s t : Session α σ n}
    (h : evaluate P x s = .ok (.ok f) t) : Evaluated s t x f := by
  have hfound : After (evaluate P x) s (fun answer t => ∀ f, answer = .ok f → Evaluated s t x f)
      fun _ _ => True := by
    refine after_evaluate (fun _ _ => ?_) (fun _ _ => ?_) (fun _ _ _ _ => ?_) fun g hg hfinite => ?_
    · exact trivial
    · exact nofun
    · exact nofun
    · rintro _ ⟨⟩
      exact (course_defined P hg hfinite).1
  exact hfound.ok h f rfl

/-- An evaluation at the point of the session stays there. -/
theorem evaluated_here {P : Problem α σ n} {f : Vector α n} {o s t : Session α σ n}
    (hs : Trail o s) (h : evaluate P s.x s = .ok (.ok f) t) : t.x = s.x ∧ Evaluated o t t.x f := by
  have hst := (course_evaluate P s.x).ok h
  have hx : t.x = s.x := hst.point
  rw [hx]
  exact ⟨rfl, (evaluated_of_ok h).earlier hs.calls hst.calls⟩

theorem course_request (P : Problem α σ n) {β : Type} (request : Answer σ β) (kind : Request)
    (record : Except EvalFailure β → Call α n) :
    Follows (Course (Session.footing P)) (ask request record >>= settleAnswer kind) :=
  follows_request fun _ => Course.of_call rfl rfl rfl

theorem course_updateAuxiliary (P : Problem α σ n) (x : Vector α n) :
    Follows (Course (Session.footing P)) (updateAuxiliary P x) :=
  follows_updateAuxiliary fun _ _ => Course.of_call rfl rfl rfl

theorem limitByBox_apply (P : Problem α σ n) (x step : Vector α n) (s : Session α σ n) :
    let limited := s.work.box.limitStep x s.nominal step (P.options.activeRatio n)
      P.options.stepLimitFactor
    limitByBox P x step s =
      .ok limited.2 { s with work := { s.work with box := limited.1 } } := rfl

theorem course_limitByBox (P : Problem α σ n) (x step : Vector α n) :
    Follows (Course (Session.footing P)) (limitByBox P x step) := by
  intro s
  unfold After
  rw [limitByBox_apply]
  refine Course.of_eq rfl rfl ?_
  simp only [Session.footing, Session.spot, Session.stage, Session.setting]
  rw [Box.blank_limitStep]

/-- Every part of a solve leaves a session that follows on the one it started in, and keeps what
its own changes keep. -/
theorem closed_course (P : Problem α σ n) (past : Bool) {γ : Type} {keep : Session α σ n → γ}
    (part : Footing α n → γ) (h : ∀ s, keep s = part (s.footing P)) :
    Closed P past keep fun _ a => Follows (Course keep) a := by
  have leaf : ∀ {β : Type} {a : Action α σ n β}, Follows (Course (Session.footing P)) a →
      Follows (Course keep) a := by
    intro β a ha s
    have coarser : ∀ t, Course (Session.footing P) s t → Course keep s t := fun t ht =>
      ht.coarser fun e => by rw [h, h, e]
    exact (ha s).mono (fun _ t _ => coarser t) fun _ t _ => coarser t
  exact
    { value := fun _ s => Course.refl keep s
      seq := fun ha hf => ha.bind (fun _ _ _ => Course.trans) hf
      read := fun _ hf s => hf s s
      residualNominals := fun _ hf s => hf s s
      update := fun hg s => Course.of_eq (congrArg Ledger.calls (hg.silent s))
        (congrArg Ledger.bracket (hg.silent s)) (hg.keeps s)
      notice := fun _ s => Course.of_eq rfl rfl (by rw [h, h]; rfl)
      residual := fun x => leaf (course_evaluate P x)
      written := fun _ _ _ _ hstore s => hstore _ s
      jacobian := fun _ _ _ _ => leaf (course_request P _ _ _)
      directional := fun _ _ _ _ => leaf (course_request P _ _ _)
      auxiliary := fun x => leaf (course_updateAuxiliary P x)
      limit := fun x step => leaf (course_limitByBox P x step) }

/-! ## The course of the parts of a solve -/

section
variable (P : Problem α σ n)

theorem course_lineSearch (x f step : Vector α n) (length stepTolerance : α) :
    Follows (Course (Session.footing P)) (lineSearch P x f step length stepTolerance) :=
  (closed_course P true id fun _ => rfl).lineSearch (fun s => Course.refl _ s) x f step length
    stepTolerance

theorem course_prepareJacobian (iteration : Nat) (x f : Vector α n) :
    Follows (Course (Session.footing P)) (prepareJacobian P iteration x f) :=
  (closed_course P true id fun _ => rfl).prepareJacobian iteration x f

theorem course_computeStep (f : Vector α n) (stepTolerance : α) :
    Follows (Course (Session.footing P)) (computeStep P f stepTolerance) :=
  (closed_course P true id fun _ => rfl).computeStep f stepTolerance

theorem course_searchDirection (descent : Bool) (x f step : Vector α n) (kind : StepKind) :
    Follows (Course (Session.footing P)) (searchDirection P descent x f step kind) :=
  (closed_course P true id fun _ => rfl).ground.grip.searchDirection descent x f step kind

theorem course_tightenResidualScales (x : Vector α n) :
    Follows (Course (Session.spot P)) (tightenResidualScales P x) :=
  (closed_course P true Footing.toSpot fun _ => rfl).hold.tightenResidualScales x

theorem course_updateResidualScales : Follows (Course (Session.spot P)) (updateResidualScales P) :=
  (closed_course P true Footing.toSpot fun _ => rfl).updateResidualScales

theorem course_runDamped (tol : Tolerances α) (descent : Bool) :
    Follows (Course (Session.stage P)) (runDamped P tol descent) :=
  (closed_course P true (fun f => f.toSpot.toStage) fun _ => rfl).runDamped
    (fun x f step length t => (closed_course P true (fun f => f.toSpot.toStage) fun _ => rfl).lineSearch
      (fun s => Course.refl _ s) x f step length t) tol descent

theorem course_findRoot (h : n = 1) (a b : Sample α) (xtol : α) :
    Follows (Course (Session.footing P)) (findRoot (evaluateSingle P h) a b xtol).run :=
  (closed_course P true id fun _ => rfl).findRoot h a b xtol

theorem course_refineAttempt (attempt : Attempt α) :
    Follows (Course (Session.stage P)) (refineAttempt P attempt) :=
  (closed_course P true (fun f => f.toSpot.toStage) fun _ => rfl).refineAttempt
    (fun _ hf s => hf s s) attempt

end

end

end AlgebraicLoop
