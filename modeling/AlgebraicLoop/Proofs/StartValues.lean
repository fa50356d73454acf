import AlgebraicLoop.Proofs.Frames

/-!
# How a block takes its start values

A block asks its model for start values when it first needs them. They are taken as a whole or not at
all: the first thing wrong with them ends the call, and by then nothing has changed but the model and
the records. Once they are taken, the block does not ask again.

* `Givens`, `StartRefused`, `start_taken_or_refused`: start values that are taken, and what is wrong
  with those that are not;
* `prepareUnknowns_givens`, `prepareUnknowns_refused`, `prepareUnknowns_again`: the session after each
  of the ways in which start values are prepared;
* `after_prepareUnknowns`, `follows_prepareUnknowns`: the same for all that is said of both ends;
* `JustStarted`, `NotStarted`: what they leave of a block that had not started;
* `takePoint_apply`, `after_setPointAction`: a block that is put at a point.
-/

namespace AlgebraicLoop
set_option autoImplicit false

/-! ## Start values -/

/-- The vectors of the start values, in the order their lengths are looked at. -/
def StartValues.vectors {α : Type} (values : StartValues α) : List (Array α) :=
  [values.nominal, values.lower, values.upper, values.initial]

section
variable {α σ : Type} [Scalar α] {n : Nat}

/-- Start values of the right lengths. -/
structure Givens (α : Type) (n : Nat) where
  nominal : Vector α n
  lower : Vector α n
  upper : Vector α n
  initial : Vector α n

/-- The start values as a model gives them. -/
def Givens.values (g : Givens α n) : StartValues α :=
  ⟨g.nominal.toArray, g.lower.toArray, g.upper.toArray, g.initial.toArray⟩

/-- The nominal values that are used. -/
def Givens.repaired (g : Givens α n) : Vector α n :=
  Vector.ofFn fun i => repairNominal g.nominal[i] g.lower[i] g.upper[i] g.initial[i]

/-- No lower bound is above the upper one. -/
def Givens.Ordered (g : Givens α n) : Prop := ∀ i : Fin n, ¬ g.lower[i] > g.upper[i]

/-- The answer to the request for start values is not taken, with the fault that names the first
thing wrong with it. -/
inductive StartRefused {α : Type} [Scalar α] (n : Nat) :
    Except EvalFailure (StartValues α) → Fault α → Prop
  | fatal (reason : String) : StartRefused n (.error (.fatal reason)) (.modelFatal .start reason)
  | undefined (reason : String) :
      StartRefused n (.error (.recoverable reason)) (.initialEvaluation (.model reason))
  | length {values : StartValues α} {v : Array α} :
      (values.vectors.find? fun v => decide (v.size ≠ n)) = some v →
      StartRefused n (.ok values) (.dimensionMismatch n v.size)
  | disordered {g : Givens α n} {i : Fin n} :
      ((List.finRange n).find? fun i => decide (g.lower[i] > g.upper[i])) = some i →
      StartRefused n (.ok g.values) (.inconsistentBounds i g.lower[i] g.upper[i])

/-- Refused start values do not count as a solve that did not converge. -/
theorem StartRefused.not_unconverged {answer : Except EvalFailure (StartValues α)} {fault : Fault α}
    (h : StartRefused n answer fault) (details : Unconverged α) :
    fault ≠ .unconverged details := by
  cases h <;> exact nofun

omit [Scalar α] in
theorem StartValues.givens {values : StartValues α}
    (h : (values.vectors.find? fun v => decide (v.size ≠ n)) = none) :
    ∃ g : Givens α n, g.values = values := by
  have sizes : ∀ v ∈ values.vectors, v.size = n := fun v hv => by
    simpa using List.find?_eq_none.1 h v hv
  exact ⟨⟨⟨values.nominal, sizes _ (by simp [StartValues.vectors])⟩,
    ⟨values.lower, sizes _ (by simp [StartValues.vectors])⟩,
    ⟨values.upper, sizes _ (by simp [StartValues.vectors])⟩,
    ⟨values.initial, sizes _ (by simp [StartValues.vectors])⟩⟩, rfl⟩

/-- Every answer is taken or refused. -/
theorem start_taken_or_refused (answer : Except EvalFailure (StartValues α)) :
    (∃ g : Givens α n, answer = .ok g.values ∧ g.Ordered) ∨
      ∃ fault, StartRefused n answer fault := by
  cases answer with
  | error failure =>
    cases failure with
    | recoverable reason => exact .inr ⟨_, .undefined reason⟩
    | fatal reason => exact .inr ⟨_, .fatal reason⟩
  | ok values =>
    cases hlengths : values.vectors.find? fun v => decide (v.size ≠ n) with
    | some v => exact .inr ⟨_, .length hlengths⟩
    | none =>
      obtain ⟨g, rfl⟩ := StartValues.givens hlengths
      cases hbounds : (List.finRange n).find? fun i => decide (g.lower[i] > g.upper[i]) with
      | some i => exact .inr ⟨_, .disordered hbounds⟩
      | none =>
        refine .inl ⟨g, rfl, fun i => ?_⟩
        simpa using List.find?_eq_none.1 hbounds i (List.mem_finRange i)

/-! ## Lengths, bounds and points -/

omit [Scalar α] in
theorem checkLength_fit {v : Array α} (h : v.size = n) :
    (checkLength v : Action α σ n (Vector α n)) = pure ⟨v, h⟩ := dif_pos h

omit [Scalar α] in
theorem checkLength_misfit {v : Array α} (h : v.size ≠ n) :
    (checkLength v : Action α σ n (Vector α n)) = fail (.dimensionMismatch n v.size) := dif_neg h

omit [Scalar α] in
theorem checkLength_vector (v : Vector α n) :
    (checkLength v.toArray : Action α σ n (Vector α n)) = pure v := checkLength_fit v.size_toArray

theorem checkBounds_inOrder {lower upper : Vector α n} {i : Fin n} (h : ¬ lower[i] > upper[i])
    (s : Session α σ n) : ∃ notices, checkBounds lower upper i s = .ok () { s with notices } := by
  unfold checkBounds
  rw [if_neg h]
  split
  · exact ⟨_, rfl⟩
  · exact ⟨s.notices, rfl⟩

theorem checkBounds_ordered {lower upper : Vector α n} (is : List (Fin n))
    (h : ∀ i ∈ is, ¬ lower[i] > upper[i]) (s : Session α σ n) :
    ∃ notices, is.forM (checkBounds lower upper) s = .ok () { s with notices } := by
  induction is generalizing s with
  | nil => exact ⟨s.notices, rfl⟩
  | cons i is ih =>
    obtain ⟨hi, his⟩ := List.forall_mem_cons.1 h
    obtain ⟨notices, hfirst⟩ := checkBounds_inOrder hi s
    obtain ⟨notices', hrest⟩ := ih his { s with notices }
    exact ⟨notices', (bind_ok hfirst).trans hrest⟩

theorem checkBounds_disordered {lower upper : Vector α n} {is : List (Fin n)} {i : Fin n}
    (h : (is.find? fun i => decide (lower[i] > upper[i])) = some i) (s : Session α σ n) :
    ∃ notices, is.forM (checkBounds lower upper) s =
      .error (.fault (.inconsistentBounds i lower[i] upper[i])) { s with notices } := by
  induction is generalizing s with
  | nil => cases h
  | cons j is ih =>
    rw [List.find?_cons] at h
    by_cases hj : lower[j] > upper[j]
    · rw [decide_eq_true hj] at h
      cases h
      refine ⟨s.notices, bind_error ?_⟩
      unfold checkBounds
      rw [if_pos hj]
      rfl
    · rw [decide_eq_false hj] at h
      obtain ⟨notices, hfirst⟩ := checkBounds_inOrder hj s
      obtain ⟨notices', hrest⟩ := ih h { s with notices }
      exact ⟨notices', (bind_ok hfirst).trans hrest⟩

/-- The point moved into the bounds when these are enforced. -/
def Problem.confined (P : Problem α σ n) (lower upper x : Vector α n) : Vector α n :=
  if P.options.enforceBounds then project lower upper x else x

theorem projectPoint_apply (P : Problem α σ n) (s : Session α σ n) :
    projectPoint P s = .ok () { s with x := P.confined s.lower s.upper s.x } := by
  unfold projectPoint Problem.confined
  split
  · rfl
  · rfl

theorem after_projectPoint {P : Problem α σ n} {s : Session α σ n}
    {Q : Unit → Session α σ n → Prop} {H : Halt α → Session α σ n → Prop}
    (h : Q () { s with x := P.confined s.lower s.upper s.x }) : After (projectPoint P) s Q H := by
  rw [after_congr (projectPoint_apply P s)]
  exact h

/-! ## Preparing the unknowns -/

/-- The session of a block that takes these start values, apart from the request for them and the
notices about them. -/
def Session.startWith (P : Problem α σ n) (g : Givens α n) (s : Session α σ n) : Session α σ n :=
  { s with
    x := P.confined g.lower g.upper g.initial
    nominal := g.repaired
    lower := g.lower
    upper := g.upper
    initial := g.initial
    phase := .started }

/-- The session after start values were asked for and taken. -/
def Session.opened (P : Problem α σ n) (g : Givens α n) (notices : Array (Notice α))
    (s : Session α σ n) : Session α σ n :=
  { s.startWith P g with
    model := (P.model.start (StartValues.default n) s.model).2
    notices
    calls := s.calls.push (.start (.ok g.values)) }

/-- The session after start values were asked for and not taken. -/
def Session.unstarted (P : Problem α σ n) (notices : Array (Notice α)) (s : Session α σ n) :
    Session α σ n :=
  { s with
    model := (P.model.start (StartValues.default n) s.model).2
    notices
    calls := s.calls.push (.start (P.model.start (StartValues.default n) s.model).1) }

section
variable {P : Problem α σ n} {s : Session α σ n} {g : Givens α n} {fault : Fault α}

theorem prepareUnknowns_again (hs : s.phase ≠ .untouched) : prepareUnknowns P s = .ok () s := by
  unfold prepareUnknowns
  rw [get_bind_apply, if_neg hs]
  rfl

/-- Start values of the right lengths, with bounds in order, are taken. -/
theorem prepareUnknowns_givens (hs : s.phase = .untouched)
    (hanswer : (P.model.start (StartValues.default n) s.model).1 = .ok g.values) (hg : g.Ordered) :
    ∃ notices, prepareUnknowns P s = .ok () (s.opened P g notices) := by
  unfold prepareUnknowns
  rw [get_bind_apply, if_pos hs, ask_bind_apply, hanswer]
  unfold Givens.values
  dsimp only
  rw [checkLength_vector, pure_bind, checkLength_vector, pure_bind, checkLength_vector, pure_bind,
    checkLength_vector, pure_bind]
  obtain ⟨notices, hbounds⟩ := checkBounds_ordered (List.finRange n) (fun i _ => hg i)
    { s with
      model := (P.model.start (StartValues.default n) s.model).2
      calls := s.calls.push (.start (.ok g.values)) }
  refine ⟨notices, (bind_ok hbounds).trans ?_⟩
  rw [modify_bind_apply, projectPoint_apply]
  rfl

/-- Start values that are refused change nothing but the model and the records. -/
theorem prepareUnknowns_refused (hs : s.phase = .untouched)
    (h : StartRefused n (P.model.start (StartValues.default n) s.model).1 fault) :
    ∃ notices, prepareUnknowns P s = .error (.fault fault) (s.unstarted P notices) := by
  unfold prepareUnknowns Session.unstarted
  rw [get_bind_apply, if_pos hs, ask_bind_apply]
  generalize (P.model.start (StartValues.default n) s.model).1 = answer at h ⊢
  cases h with
  | fatal reason => exact ⟨s.notices, rfl⟩
  | undefined reason => exact ⟨s.notices, rfl⟩
  | @length values v hfirst =>
    refine ⟨s.notices, ?_⟩
    dsimp only
    simp only [StartValues.vectors, List.find?_cons, List.find?_nil] at hfirst
    -- The lengths are looked at one after the other.
    by_cases hnominal : values.nominal.size = n
    · rw [checkLength_fit hnominal, pure_bind]
      by_cases hlower : values.lower.size = n
      · rw [checkLength_fit hlower, pure_bind]
        by_cases hupper : values.upper.size = n
        · rw [checkLength_fit hupper, pure_bind]
          by_cases hinitial : values.initial.size = n
          · simp [hnominal, hlower, hupper, hinitial] at hfirst
          · obtain rfl : values.initial = v := by
              simpa [hnominal, hlower, hupper, hinitial] using hfirst
            rw [checkLength_misfit hinitial, fail_bind_apply]
        · obtain rfl : values.upper = v := by simpa [hnominal, hlower, hupper] using hfirst
          rw [checkLength_misfit hupper, fail_bind_apply]
      · obtain rfl : values.lower = v := by simpa [hnominal, hlower] using hfirst
        rw [checkLength_misfit hlower, fail_bind_apply]
    · obtain rfl : values.nominal = v := by simpa [hnominal] using hfirst
      rw [checkLength_misfit hnominal, fail_bind_apply]
  | @disordered g i hfirst =>
    unfold Givens.values
    dsimp only
    rw [checkLength_vector, pure_bind, checkLength_vector, pure_bind, checkLength_vector, pure_bind,
      checkLength_vector, pure_bind]
    obtain ⟨notices, hrun⟩ := checkBounds_disordered hfirst _
    exact ⟨notices, bind_error hrun⟩

/-- The three ways in which start values are prepared. -/
theorem after_prepareUnknowns {Q : Unit → Session α σ n → Prop} {H : Halt α → Session α σ n → Prop}
    (again : s.phase ≠ .untouched → Q () s)
    (taken : ∀ g notices, s.phase = .untouched →
      (P.model.start (StartValues.default n) s.model).1 = .ok g.values → g.Ordered →
      Q () (s.opened P g notices))
    (refused : ∀ fault notices, s.phase = .untouched →
      StartRefused n (P.model.start (StartValues.default n) s.model).1 fault →
      H (.fault fault) (s.unstarted P notices)) : After (prepareUnknowns P) s Q H := by
  by_cases hs : s.phase = .untouched
  · obtain ⟨g, hanswer, hg⟩ | ⟨fault, hfault⟩ := start_taken_or_refused (n := n)
      (P.model.start (StartValues.default n) s.model).1
    · obtain ⟨notices, hrun⟩ := prepareUnknowns_givens hs hanswer hg
      rw [after_congr hrun]
      exact taken g notices hs hanswer hg
    · obtain ⟨notices, hrun⟩ := prepareUnknowns_refused hs hfault
      rw [after_congr hrun]
      exact refused fault notices hs hfault
  · rw [after_congr (prepareUnknowns_again hs)]
    exact again hs

end

/-! ## Blocks that had not started -/

/-- The session of a block that has started from these values. -/
structure Session.StartedFrom (g : Givens α n) (s : Session α σ n) : Prop where
  started : s.phase ≠ .untouched
  lower : s.lower = g.lower
  upper : s.upper = g.upper
  nominal : s.nominal = g.repaired

/-- The session of a block that has just taken its start values. -/
structure JustStarted (P : Problem α σ n) (s t : Session α σ n) : Prop where
  phase : t.phase = .started
  work : t.work = s.work
  startedFrom : ∃ g : Givens α n,
    (P.model.start (StartValues.default n) s.model).1 = .ok g.values ∧ g.Ordered ∧ t.StartedFrom g

namespace JustStarted
variable {P : Problem α σ n} {s t : Session α σ n}

theorem nominal (h : JustStarted P s t) (i : Fin n) :
    ∃ v x, t.nominal[i] = repairNominal v t.lower[i] t.upper[i] x := by
  obtain ⟨g, _, _, hg⟩ := h.startedFrom
  rw [hg.nominal, hg.lower, hg.upper]
  exact ⟨g.nominal[i], g.initial[i], Vector.getElem_ofFn i.isLt⟩

theorem given (h : JustStarted P s t) :
    ∃ values, (P.model.start (StartValues.default n) s.model).1 = .ok values ∧
      t.lower.toArray = values.lower ∧ t.upper.toArray = values.upper := by
  obtain ⟨g, hanswer, _, hg⟩ := h.startedFrom
  exact ⟨g.values, hanswer, congrArg Vector.toArray hg.lower, congrArg Vector.toArray hg.upper⟩

end JustStarted

/-- The session of a block that could not take its start values, and how that ended. -/
structure NotStarted (s : Session α σ n) (halt : Halt α) (t : Session α σ n) : Prop where
  phase : t.phase = s.phase
  work : t.work = s.work
  nominal : t.nominal = s.nominal
  verdict : ∀ details, halt ≠ .fault (.unconverged details)

/-- A block that has not started takes its start values, or stays as it is. -/
theorem prepareUnknowns_untouched (P : Problem α σ n) {s : Session α σ n}
    (hs : s.phase = .untouched) :
    After (prepareUnknowns P) s (fun _ t => JustStarted P s t) fun halt t => NotStarted s halt t :=
  after_prepareUnknowns (fun h => absurd hs h)
    (fun g _ _ hanswer hg => ⟨rfl, rfl, g, hanswer, hg, Phase.noConfusion, rfl, rfl, rfl⟩)
    fun _ _ _ h => ⟨rfl, rfl, rfl, fun details e => h.not_unconverged details (Halt.fault.inj e)⟩

/-! ## A given point -/

/-- What remains to be done about a given point once the start values were taken. -/
def takePoint (P : Problem α σ n) (x : Vector α n) : Action α σ n Unit := do
  modify fun s => { s with x }
  projectPoint P
  modify fun s => { s with guessGiven := true }

theorem setPointAction_eq (P : Problem α σ n) (x : Array α) :
    setPointAction P x = checkLength x >>= fun x => prepareUnknowns P >>= fun _ => takePoint P x :=
  rfl

/-- The session of a block that was put at a point. -/
def Session.putAt (P : Problem α σ n) (x : Vector α n) (s : Session α σ n) : Session α σ n :=
  { s with x := P.confined s.lower s.upper x, guessGiven := true }

theorem takePoint_apply (P : Problem α σ n) (x : Vector α n) (s : Session α σ n) :
    takePoint P x s = .ok () (s.putAt P x) := by
  unfold takePoint
  rw [modify_bind_apply, bind_ok (projectPoint_apply P _)]
  rfl

/-- A point of the right length is taken once the start values are there. -/
theorem after_setPointAction {P : Problem α σ n} {x : Array α} {s : Session α σ n}
    {Q : Unit → Session α σ n → Prop} {H : Halt α → Session α σ n → Prop}
    (misfit : x.size ≠ n → H (.fault (.dimensionMismatch n x.size)) s)
    (fit : ∀ h : x.size = n, After (prepareUnknowns P) s (fun _ t => Q () (t.putAt P ⟨x, h⟩)) H) :
    After (setPointAction P x) s Q H := by
  rw [setPointAction_eq]
  by_cases hx : x.size = n
  · rw [checkLength_fit hx, pure_bind]
    refine (fit hx).bind fun _ t ht => ?_
    rw [after_congr (takePoint_apply P _ t)]
    exact ht
  · rw [checkLength_misfit hx]
    exact misfit hx

section
variable {P : Problem α σ n} {R : Session α σ n → Session α σ n → Prop}

/-- However start values are prepared, they are asked for at most once. -/
theorem follows_prepareUnknowns (same : ∀ s, R s s)
    (taken : ∀ s g notices, R s (s.opened P g notices))
    (refused : ∀ s notices, R s (s.unstarted P notices)) : Follows R (prepareUnknowns P) := fun s =>
  after_prepareUnknowns (fun _ => same s) (fun g notices _ _ _ => taken s g notices)
    fun _ notices _ _ => refused s notices

theorem follows_setPointAction (same : ∀ s, R s s) (trans : ∀ s t u, R s t → R t u → R s u)
    (hprepare : Follows R (prepareUnknowns P)) (putAt : ∀ s x, R s (s.putAt P x)) (x : Array α) :
    Follows R (setPointAction P x) := fun s =>
  after_setPointAction (fun _ => same s) fun _ =>
    (hprepare s).mono (fun _ t _ ht => trans s t _ ht (putAt t _)) fun _ _ _ => id

end

end

end AlgebraicLoop
