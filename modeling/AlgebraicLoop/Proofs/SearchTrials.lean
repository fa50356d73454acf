import AlgebraicLoop.Proofs.ExactVectors
import AlgebraicLoop.Proofs.MeritDescent

/-!
# The trials of a line search

What a line search does without rounding, trial by trial. Each trial asks the model for the residual
at the end of a part of the step. The first part is the whole step, each later one is between a
tenth and a half of the one before it.

* `Outlook`: the numbers a search goes by, with the merit it allows at the end of a part;
* `SearchTrial`, `TrialAnswers`, `TrialCalls`: the trials of a search and the answers of the model;
* `Concluded`: what a search comes to after its trials;
* `lineSearch_concluded`: every search from its first trial to its end.
-/

namespace AlgebraicLoop
set_option autoImplicit false

open Exact

section
variable {K : Type} [Field K] [LinearOrder K] {n : Nat}

/-! ## What a search goes by -/

/-- The residual and its Jacobian where a search begins, the scales of the residual, and the step to
search along. -/
structure Outlook (K : Type) (n : Nat) where
  residual : Fin n → K
  jacobian : Fin n → Fin n → K
  scale : Fin n → K
  step : Fin n → K

namespace Outlook

/-- Half the sum of the squares of the scaled residuals. -/
def merit (o : Outlook K n) (f : Fin n → K) : K :=
  1 / (2 : ℕ) * ∑ i, (f i * o.scale i) * (f i * o.scale i)

/-- The rate of change of the merit along the step. -/
def slope (o : Outlook K n) : K :=
  ∑ i, o.scale i * o.scale i * o.residual i * ∑ j, o.jacobian i j * o.step j

/-- The greatest merit that is accepted at the end of a part of the step. -/
def allowed (o : Outlook K n) (part : K) : K :=
  o.merit o.residual + 1 / (10 : ℕ) ^ 4 * part * min o.slope 0

end Outlook

/-- Parts of a step in the order they are tried. -/
structure Shrinks (first : K) (parts : List K) : Prop where
  first : ∀ a ∈ parts.head?, a = first
  next : parts.IsChain fun a b => 1 / 10 * a ≤ b ∧ b ≤ 1 / 2 * a

theorem Shrinks.nil (c : K) : Shrinks c [] := ⟨nofun, .nil⟩

theorem Shrinks.cons {c d : K} {parts : List K} (hlow : 1 / 10 * c ≤ d) (hhigh : d ≤ 1 / 2 * c)
    (h : Shrinks d parts) : Shrinks c (c :: parts) := by
  refine ⟨fun a ha => (Option.some.inj ha).symm, List.isChain_cons.2 ⟨fun b hb => ?_, h.next⟩⟩
  rw [h.first b hb]
  exact ⟨hlow, hhigh⟩

theorem Shrinks.single (c : K) : Shrinks c [c] :=
  ⟨fun _ ha => (Option.some.inj ha).symm, List.isChain_singleton c⟩

/-! ## Trials -/

/-- A part of a step that was tried, with the answer of the model at its end. -/
structure SearchTrial (K : Type) (n : Nat) where
  part : K
  answer : Except EvalFailure (Vector (Exact K) n)

end

section
variable {K : Type} [Field K] [LinearOrder K] [SquareRoot K] {σ : Type} {n : Nat}

/-- The trial is refused: the residual is undefined or not finite at its end, or the merit is
greater than allowed there. -/
def SearchTrial.Refused (o : Outlook K n) (q : SearchTrial K n) : Prop :=
  (∃ reason, q.answer = .error (.recoverable reason)) ∨
    (∃ f, q.answer = .ok f ∧ allFinite f = false) ∨
    ∃ g, q.answer = .ok (ofField g) ∧ o.allowed q.part < o.merit g

/-- The trial ends at an accepted point, for a step of the given length. -/
structure SearchTrial.Accepts (o : Outlook K n) (x : Vector (Exact K) n) (length stepTolerance : K)
    (q : SearchTrial K n) (a : Accepted (Exact K) n) : Prop where
  damping : a.damping = finite q.part
  point : a.x = along x (ofField o.step) (finite q.part)
  residual : q.answer = .ok a.f
  enough : ∃ g, a.f = ofField g ∧ o.merit g ≤ o.allowed q.part
  part : 0 < q.part ∧ q.part ≤ 1
  long : stepTolerance ≤ q.part * length

/-- A model in one state gives the answers of the trials in turn, and is in another state then. -/
inductive TrialAnswers (model : Model (Exact K) σ n) (x step : Vector (Exact K) n) :
    σ → List (SearchTrial K n) → σ → Prop
  | none {m : σ} : TrialAnswers model x step m [] m
  | next {m m' m'' : σ} {q : SearchTrial K n} {rest : List (SearchTrial K n)} :
      model.evaluate (along x step (finite q.part)) m = (q.answer, m') →
      TrialAnswers model x step m' rest m'' → TrialAnswers model x step m (q :: rest) m''

/-- Between the two sessions the model was asked for the residual at the ends of the trials, in this
order, and for nothing else. -/
structure TrialCalls (P : Problem (Exact K) σ n) (x step : Vector (Exact K) n)
    (s : Session (Exact K) σ n) (trials : List (SearchTrial K n)) (t : Session (Exact K) σ n) :
    Prop where
  calls : t.calls.toList =
    s.calls.toList ++ trials.map fun q => .evaluate (along x step (finite q.part)) q.answer
  answers : TrialAnswers P.model x step s.model trials t.model

/-- What a search comes to after its trials, each of them of a part no smaller than asked for. It
accepts the end of the last one, gives up before a part that is too small or when no trials are
left, or halts at a fatal answer. -/
inductive Concluded (o : Outlook K n) (x : Vector (Exact K) n) (length stepTolerance first : K)
    (budget : Nat) (trials : List (SearchTrial K n)) :
    Except (Halt (Exact K)) (Except FailureReason (Accepted (Exact K) n)) → Prop
  | accepted {earlier : List (SearchTrial K n)} {last : SearchTrial K n}
      {a : Accepted (Exact K) n} :
      trials = earlier ++ [last] → (∀ q ∈ earlier, q.Refused o) →
      last.Accepts o x length stepTolerance a →
      Concluded o x length stepTolerance first budget trials (.ok (.ok a))
  | tooSmall {next : K} :
      (∀ q ∈ trials, q.Refused o) → Shrinks first (trials.map SearchTrial.part ++ [next]) →
      next * length < stepTolerance →
      Concluded o x length stepTolerance first budget trials (.ok (.error .stepTooSmall))
  | motionless :
      trials = [] → length = 0 →
      Concluded o x length stepTolerance first budget trials (.ok (.error .stepTooSmall))
  | exhausted :
      (∀ q ∈ trials, q.Refused o) → trials.length = budget →
      Concluded o x length stepTolerance first budget trials (.ok (.error .lineSearch))
  | aborted {earlier : List (SearchTrial K n)} {last : SearchTrial K n} {reason : String} :
      trials = earlier ++ [last] → (∀ q ∈ earlier, q.Refused o) →
      last.answer = .error (.fatal reason) →
      Concluded o x length stepTolerance first budget trials
        (.error (.fault (.modelFatal .evaluate reason)))

/-- A search that made the given trials and came to this end. -/
structure SearchRun (P : Problem (Exact K) σ n) (o : Outlook K n) (x : Vector (Exact K) n)
    (length stepTolerance first : K) (budget : Nat) (s : Session (Exact K) σ n)
    (trials : List (SearchTrial K n))
    (ending : Except (Halt (Exact K)) (Except FailureReason (Accepted (Exact K) n)))
    (t : Session (Exact K) σ n) : Prop where
  calls : TrialCalls P x (ofField o.step) s trials t
  few : trials.length ≤ budget
  shrinks : Shrinks first (trials.map SearchTrial.part)
  long : ∀ q ∈ trials, stepTolerance ≤ q.part * length
  concluded : Concluded o x length stepTolerance first budget trials ending

variable {P : Problem (Exact K) σ n} {o : Outlook K n} {x step : Vector (Exact K) n}
  {length stepTolerance c d : K} {budget : Nat} {s t u : Session (Exact K) σ n}
  {q : SearchTrial K n} {trials : List (SearchTrial K n)}
  {answer : Except EvalFailure (Vector (Exact K) n)}
  {ending : Except (Halt (Exact K)) (Except FailureReason (Accepted (Exact K) n))}

theorem TrialCalls.none (P : Problem (Exact K) σ n) (x step : Vector (Exact K) n)
    (s : Session (Exact K) σ n) : TrialCalls P x step s [] s :=
  ⟨(List.append_nil _).symm, .none⟩

theorem TrialCalls.cons
    (hmodel : P.model.evaluate (along x step (finite q.part)) s.model = (q.answer, u.model))
    (hcalls : u.calls = s.calls.push (.evaluate (along x step (finite q.part)) q.answer))
    (h : TrialCalls P x step u trials t) : TrialCalls P x step s (q :: trials) t := by
  refine ⟨?_, .next hmodel h.answers⟩
  rw [h.calls, hcalls, Array.toList_push, List.append_assoc, List.map_cons, List.singleton_append]

/-- One more refused trial, before the others. -/
theorem Concluded.cons (hq : q.Refused o) (hpart : q.part = c) (hlow : 1 / 10 * c ≤ d)
    (hhigh : d ≤ 1 / 2 * c) (hlength : length ≠ 0)
    (h : Concluded o x length stepTolerance d budget trials ending) :
    Concluded o x length stepTolerance c (budget + 1) (q :: trials) ending := by
  cases h with
  | accepted heq hearlier hlast =>
    exact .accepted (by rw [heq, List.cons_append]) (List.forall_mem_cons.2 ⟨hq, hearlier⟩) hlast
  | tooSmall hrefused hshrinks hsmall =>
    refine .tooSmall (List.forall_mem_cons.2 ⟨hq, hrefused⟩) ?_ hsmall
    rw [List.map_cons, List.cons_append, hpart]
    exact hshrinks.cons hlow hhigh
  | motionless _ hzero => exact absurd hzero hlength
  | exhausted hrefused hall =>
    exact .exhausted (List.forall_mem_cons.2 ⟨hq, hrefused⟩) (by rw [List.length_cons, hall])
  | aborted heq hearlier hlast =>
    exact .aborted (by rw [heq, List.cons_append]) (List.forall_mem_cons.2 ⟨hq, hearlier⟩) hlast

/-- A search whose first trial is refused goes on from a shorter part. -/
theorem SearchRun.cons (hrefused : SearchTrial.Refused o ⟨c, answer⟩)
    (hmodel : P.model.evaluate (along x (ofField o.step) (finite c)) s.model = (answer, u.model))
    (hcalls : u.calls = s.calls.push (.evaluate (along x (ofField o.step) (finite c)) answer))
    (hlong : stepTolerance ≤ c * length) (hlength : length ≠ 0)
    (hlow : 1 / 10 * c ≤ d) (hhigh : d ≤ 1 / 2 * c)
    (h : SearchRun P o x length stepTolerance d budget u trials ending t) :
    SearchRun P o x length stepTolerance c (budget + 1) s (⟨c, answer⟩ :: trials) ending t where
  calls := h.calls.cons hmodel hcalls
  few := Nat.succ_le_succ h.few
  shrinks := h.shrinks.cons hlow hhigh
  long := List.forall_mem_cons.2 ⟨hlong, h.long⟩
  concluded := h.concluded.cons hrefused rfl hlow hhigh hlength

/-- A search that ends with its first trial. -/
theorem SearchRun.single
    (hmodel : P.model.evaluate (along x (ofField o.step) (finite c)) s.model = (answer, u.model))
    (hcalls : u.calls = s.calls.push (.evaluate (along x (ofField o.step) (finite c)) answer))
    (hlong : stepTolerance ≤ c * length)
    (h : Concluded o x length stepTolerance c (budget + 1) [⟨c, answer⟩] ending) :
    SearchRun P o x length stepTolerance c (budget + 1) s [⟨c, answer⟩] ending u where
  calls := (TrialCalls.none P x _ u).cons hmodel hcalls
  few := Nat.succ_le_succ budget.zero_le
  shrinks := Shrinks.single c
  long := List.forall_mem_singleton.2 hlong
  concluded := h

end

section
variable {K : Type} [Field K] [LinearOrder K] [IsStrictOrderedRing K] [SquareRoot K] {σ : Type}
  {n : Nat} {P : Problem (Exact K) σ n}

/-! ## Finite merits -/

theorem Outlook.merit_eq (o : Outlook K n) (f : Fin n → K) :
    AlgebraicLoop.merit (ofField f) (ofField o.scale) = finite (o.merit f) :=
  merit_ofField f o.scale

omit [IsStrictOrderedRing K] in
/-- An upward slope counts as none. -/
theorem Outlook.downhillSlope_eq (o : Outlook K n) :
    downhillSlope (ofMatrix o.jacobian) (ofField o.residual) (ofField o.scale) (ofField o.step) =
      finite (min o.slope 0) := by
  have hslope : meritSlope (ofMatrix o.jacobian) (ofField o.residual) (ofField o.scale)
      (ofField o.step) = finite o.slope := meritSlope_ofField _ _ _ _
  unfold downhillSlope
  rw [hslope]
  dsimp only
  by_cases hup : 0 ≤ o.slope
  · have hge : finite o.slope ≥ (0 : Exact K) := by
      rw [zero_eq]
      exact hup
    rw [if_pos (.inl hge), min_eq_right hup, zero_eq]
  · have hnot : ¬ (finite o.slope ≥ (0 : Exact K) ∨ (!isFinite (finite o.slope)) = true) := by
      rw [zero_eq]
      rintro (h | h)
      · exact hup h
      · cases h
    rw [if_neg hnot, min_eq_left (not_le.1 hup).le]

theorem Outlook.decreasesEnough_iff (o : Outlook K n) (g : Fin n → K) (part : K) :
    decreasesEnough (finite (o.merit o.residual)) (finite (o.merit g)) (finite (min o.slope 0))
      (finite part) = true ↔ o.merit g ≤ o.allowed part := by
  have hfactor : (sufficientDecrease : Exact K) = finite (1 / 10 ^ 4) := by
    unfold sufficientDecrease
    rw [scientific_eq]
    norm_num
  unfold decreasesEnough
  rw [decide_eq_true_iff, hfactor, finite_mul, finite_mul, finite_add, finite_le_finite]
  rfl

/-! ## Searches -/

theorem Outlook.shorten (o : Outlook K n) (g : Fin n → K) {c : K} (h0 : 0 ≤ c) :
    ∃ d, shorten? (finite (o.merit o.residual)) (finite (o.merit g)) (finite (min o.slope 0))
      (finite c) = some (finite d) ∧ 1 / 10 * c ≤ d ∧ d ≤ 1 / 2 * c := by
  have hc : (0 : Exact K) ≤ finite c := by
    rw [zero_eq]
    exact h0
  have hfinite : (finite (min o.slope 0) : Exact K) < 0 →
      isFinite (finite (min o.slope 0) : Exact K) = true := fun _ => rfl
  obtain ⟨next, hnext, _⟩ : ∃ next, shorten? (finite (o.merit o.residual)) (finite (o.merit g))
      (finite (min o.slope 0)) (finite c) = some next ∧ 0 ≤ next :=
    LawfulScalar.shorten?_isSome hfinite hc
  obtain ⟨d, rfl, hlow, hhigh⟩ := shorten_between hfinite h0 hnext
  exact ⟨d, hnext, hlow, hhigh⟩

omit [IsStrictOrderedRing K] in
/-- After a refused trial a search goes on like one that begins at a shorter part. -/
theorem SearchRun.onward {o : Outlook K n} {x : Vector (Exact K) n} {length stepTolerance c d : K}
    {budget : Nat} {answer : Except EvalFailure (Vector (Exact K) n)} {s u : Session (Exact K) σ n}
    {action : Action (Exact K) σ n (Except FailureReason (Accepted (Exact K) n))}
    (hrefused : SearchTrial.Refused o ⟨c, answer⟩)
    (hmodel : P.model.evaluate (along x (ofField o.step) (finite c)) s.model = (answer, u.model))
    (hcalls : u.calls = s.calls.push (.evaluate (along x (ofField o.step) (finite c)) answer))
    (hlong : stepTolerance ≤ c * length) (hlength : length ≠ 0) (hlow : 1 / 10 * c ≤ d)
    (hhigh : d ≤ 1 / 2 * c)
    (h : After action u
      (fun v t => ∃ trials, SearchRun P o x length stepTolerance d budget u trials (.ok v) t)
      fun halt t => ∃ trials,
        SearchRun P o x length stepTolerance d budget u trials (.error halt) t) :
    After action u
      (fun v t => ∃ trials,
        SearchRun P o x length stepTolerance c (budget + 1) s trials (.ok v) t)
      fun halt t => ∃ trials,
        SearchRun P o x length stepTolerance c (budget + 1) s trials (.error halt) t :=
  h.mono
    (fun _ _ _ ⟨_, h⟩ => ⟨_, h.cons hrefused hmodel hcalls hlong hlength hlow hhigh⟩)
    fun _ _ _ ⟨_, h⟩ => ⟨_, h.cons hrefused hmodel hcalls hlong hlength hlow hhigh⟩

/-- However it ends, a search makes trials of shorter and shorter parts. -/
theorem backtrack_concluded (o : Outlook K n) (x : Vector (Exact K) n) {length : K}
    (hlength : 0 < length) (stepTolerance : K) (budget : Nat) {c : K} (h0 : 0 < c) (h1 : c ≤ 1)
    (s : Session (Exact K) σ n) :
    After (backtrack P x (ofField o.step) (ofField o.scale) (finite (o.merit o.residual))
        (finite (min o.slope 0)) (finite (stepTolerance / length)) budget (finite c)) s
      (fun v t => ∃ trials, SearchRun P o x length stepTolerance c budget s trials (.ok v) t)
      fun halt t => ∃ trials, SearchRun P o x length stepTolerance c budget s trials
        (.error halt) t := by
  induction budget generalizing c s with
  | zero =>
    exact ⟨[], .none P x _ s, le_refl 0, .nil c, List.forall_mem_nil _,
      .exhausted (List.forall_mem_nil _) rfl⟩
  | succ budget ih =>
    have hsmall : (finite c : Exact K) < finite (stepTolerance / length) ↔
        c * length < stepTolerance := finite_lt_finite.trans (lt_div_iff₀ hlength)
    unfold backtrack
    split
    · next hlt =>
      have hshrinks : Shrinks c ([].map (SearchTrial.part (n := n)) ++ [c]) := .single c
      exact ⟨[], .none P x _ s, Nat.zero_le _, .nil c, List.forall_mem_nil _,
        .tooSmall (List.forall_mem_nil _) hshrinks (hsmall.1 hlt)⟩
    · next hge =>
      have hlong : stepTolerance ≤ c * length := not_lt.1 fun hlt => hge (hsmall.2 hlt)
      have halved : (finite c * 0.5 : Exact K) = finite (c * (1 / 2)) := by
        rw [half_eq, finite_mul]
      dsimp only
      rw [after_bind]
      refine after_evaluate (fun reason h => ?_) (fun reason h => ?_) (fun f i h hf => ?_)
        fun f h hf => ?_
      · have hended : Concluded o x length stepTolerance c (budget + 1)
            [⟨c, .error (.fatal reason)⟩] (.error (.fault (.modelFatal .evaluate reason))) :=
          .aborted (List.nil_append _).symm (List.forall_mem_nil _) rfl
        exact ⟨_, .single (Prod.ext h rfl) (asked_calls h) hlong hended⟩
      · dsimp only
        rw [halved]
        exact SearchRun.onward (.inl ⟨reason, rfl⟩) (Prod.ext h rfl) (asked_calls h) hlong hlength.ne'
          (by linarith) (by linarith) (ih (by linarith) (by linarith) _)
      · dsimp only
        rw [halved]
        exact SearchRun.onward (.inr (.inl ⟨f, rfl, hf⟩)) (Prod.ext h rfl) (asked_calls h) hlong
          hlength.ne'
          (by linarith) (by linarith) (ih (by linarith) (by linarith) _)
      · obtain ⟨g, rfl⟩ := allFinite_iff.1 hf
        dsimp only
        rw [o.merit_eq]
        split
        · next hdecrease =>
          have hallowed := (o.decreasesEnough_iff g c).1 hdecrease
          have hended : Concluded o x length stepTolerance c (budget + 1) [⟨c, .ok (ofField g)⟩]
              (.ok (.ok ⟨finite c, along x (ofField o.step) (finite c), ofField g⟩)) :=
            .accepted (List.nil_append _).symm (List.forall_mem_nil _)
              ⟨rfl, rfl, rfl, ⟨g, rfl, hallowed⟩, ⟨h0, h1⟩, hlong⟩
          exact ⟨_, .single (Prod.ext h rfl) (asked_calls h) hlong hended⟩
        · next hdecrease =>
          have hrefused : SearchTrial.Refused o ⟨c, .ok (ofField g)⟩ := by
            refine .inr (.inr ⟨g, rfl, ?_⟩)
            exact not_le.1 fun hle => hdecrease ((o.decreasesEnough_iff g c).2 hle)
          obtain ⟨d, hnext, hlow, hhigh⟩ := o.shorten g h0.le
          rw [hnext]
          exact SearchRun.onward hrefused (Prod.ext h rfl) (asked_calls h) hlong hlength.ne' hlow hhigh
            (ih (by linarith) (by linarith) _)

/-- Every search along a step of a length that is not negative. -/
theorem lineSearch_concluded (o : Outlook K n) (x : Vector (Exact K) n) (length stepTolerance : K)
    (s : Session (Exact K) σ n) (hscale : s.work.residualScale = ofField o.scale)
    (hjacobian : s.work.jacobian = ofMatrix o.jacobian) (hlength : 0 ≤ length) :
    After (lineSearch P x (ofField o.residual) (ofField o.step) (finite length)
        (finite stepTolerance)) s
      (fun v t => ∃ trials, SearchRun P o x length stepTolerance 1 (P.options.maxBacktracks + 1) s
        trials (.ok v) t)
      fun halt t => ∃ trials, SearchRun P o x length stepTolerance 1 (P.options.maxBacktracks + 1) s
        trials (.error halt) t := by
  unfold lineSearch
  rw [after_congr (get_bind_apply _ _)]
  dsimp only
  rw [hscale, hjacobian, o.merit_eq, o.downhillSlope_eq]
  have hbeq : ((finite length : Exact K) == 0) = true ↔ length = 0 := by
    rw [zero_eq, beq_iff, finite_le_finite, finite_le_finite]
    exact ⟨fun h => le_antisymm h.1 h.2, fun h => ⟨h.le, h.ge⟩⟩
  split
  · next hzero =>
    exact ⟨[], .none P x _ s, Nat.zero_le _, .nil 1, nofun, .motionless rfl (hbeq.1 hzero)⟩
  · next hnonzero =>
    have hne : length ≠ 0 := fun h => hnonzero (hbeq.2 h)
    rw [finite_div _ hne, one_eq]
    exact backtrack_concluded o x (hlength.lt_of_ne' hne) stepTolerance _ one_pos (le_refl 1) s

end

/-! ## A search of three trials -/

/-- A root of `x² + x - 1`, which is undefined far to the right. -/
def rightEdgeProblem : Problem (Exact ℚ) Unit 1 where
  label := "loop"
  options := Options.standard
  model := Model.ofFunction (onOne fun x : Exact ℚ =>
    if x > 3 then .error (.recoverable "out of range") else .ok (.singleton (x * x + x - 1)))
  auxiliaryCount := 0
  variability := .continuous

/-- The way from zero along a step that is too long. -/
def rightEdgeOutlook : Outlook ℚ 1 where
  residual _ := -1
  jacobian _ _ := 1
  scale _ := 1
  step _ := 4

/-- A search from zero. -/
def rightEdgeSession : Session (Exact ℚ) Unit 1 :=
  { Session.fresh 1 () with
    work :=
      { Workspace.fresh 1 with
        residualScale := ofField rightEdgeOutlook.scale
        jacobian := ofMatrix rightEdgeOutlook.jacobian } }

/-- The residual is undefined at the end of the step, the merit is too great half way, and the
parabola would cut the next part to less than a tenth of it. -/
theorem lineSearch_concluded_rightEdge :
    ∃ a t trials,
      lineSearch rightEdgeProblem #v[0] (ofField rightEdgeOutlook.residual)
        (ofField rightEdgeOutlook.step) (finite 4) (finite (1 / 10)) rightEdgeSession =
          .ok (.ok a) t ∧
      SearchRun rightEdgeProblem rightEdgeOutlook #v[0] 4 (1 / 10) 1
        (rightEdgeProblem.options.maxBacktracks + 1) rightEdgeSession trials (.ok (.ok a)) t ∧
      a.damping = finite (1 / 20) ∧ t.calls.size = 3 := by
  have hcomes : comesTo (lineSearch rightEdgeProblem #v[0] (ofField rightEdgeOutlook.residual)
      (ofField rightEdgeOutlook.step) (finite 4) (finite (1 / 10))) rightEdgeSession
      (fun answer t => answer.toOption.any fun a =>
        decide (a.damping = finite (1 / 20) ∧ t.calls.size = 3)) = true := by
    decide +kernel
  obtain ⟨answer, t, hrun, htest⟩ := exists_of_comesTo hcomes
  obtain ⟨trials, hsearch⟩ := (lineSearch_concluded rightEdgeOutlook #v[0] 4 (1 / 10)
    rightEdgeSession rfl rfl (by norm_num)).ok hrun
  cases answer with
  | error reason => cases htest
  | ok a => exact ⟨a, t, trials, hrun, hsearch, of_decide_eq_true htest⟩

end AlgebraicLoop
