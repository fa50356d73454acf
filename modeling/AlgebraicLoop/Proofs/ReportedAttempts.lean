import AlgebraicLoop.Proofs.Endeavours
import AlgebraicLoop.Proofs.FreshJacobians

/-!
# The attempts in a report

A report is the sum of the attempts that its solve made. An attempt puts an iteration on record with
each of its moves, numbered by a count that also goes on where a search failed and no move was made.

* `SameMoves`, `surrounding_still`: what makes no move;
* `RunRecord.Numbered`: the numbers on record after so many iterations;
* `Walk.numbered`, `Strides.numbered`, `runDirect_numbered`: the records of attempts by each method;
* `Makes`, `Accounts`: an attempt that a solve made, and a report with the attempts it sums up;
* `endeavour_accounts`: the report at the close of a solve.
-/

namespace AlgebraicLoop
set_option autoImplicit false

section
variable {α σ : Type} [Scalar α] {n : Nat} {P : Problem α σ n} {tol : Tolerances α}
  {s t u v : Session α σ n}

/-! ## Without a move -/

/-- The second session has as many moves on count as the first one. -/
def SameMoves (s t : Session α σ n) : Prop := t.counters.iterations = s.counters.iterations

theorem Course.spot_moves (h : Course (Session.spot P) s t) : SameMoves s t :=
  congrArg Spot.iterations h.keeps

theorem Course.moves (h : Course (Session.footing P) s t) : SameMoves s t :=
  congrArg (fun p : Footing α n => p.iterations) h.keeps

theorem Follows.moves {β : Type} {a : Action α σ n β} (h : Follows (Course (Session.footing P)) a) :
    Follows SameMoves a := fun s =>
  (h s).mono (fun _ _ _ h => h.moves) fun _ _ _ h => h.moves

theorem surrounding_still (P : Problem α σ n) : Surrounding P fun _ a => Follows SameMoves a where
  value _ _ := rfl
  seq ha hf := Follows.bind (fun _ _ _ hst htu => htu.trans hst) ha hf
  read hf s := hf s s
  change hg s := (hg s).iterations
  halt _ _ := rfl
  start _ _ := rfl
  residual x := (course_evaluate P x).moves
  jacobian _ _ _ _ := (course_request P _ _ _).moves
  directional _ _ _ _ := (course_request P _ _ _).moves
  auxiliary x := (course_updateAuxiliary P x).moves

theorem evaluate_moves {x : Vector α n} {answer : Except Mishap (Vector α n)}
    (h : evaluate P x s = .ok answer t) : SameMoves s t := ((course_evaluate P x).ok h).moves

/-! ## Numbers on record -/

omit [Scalar α] in
theorem RunRecord.push_trace (record : RunRecord α) (it : IterationRecord α) :
    (record.push it).trace.toList = record.trace.toList ++ [it] := Array.toList_push

/-- The record after `k` iterations, some of which it may lack: the numbers increase up to `k`. -/
structure RunRecord.Numbered (record : RunRecord α) (k : Nat) : Prop where
  size : record.iterations = record.trace.size
  most : record.iterations ≤ k
  within : ∀ it ∈ record.trace.toList, it.iteration ≤ k
  increasing : record.trace.toList.Pairwise fun it later => it.iteration < later.iteration

namespace RunRecord.Numbered
variable {record : RunRecord α} {k : Nat}

theorem blank (norm : α) :
    ({ RunRecord.empty with residualNorm := norm } : RunRecord α).Numbered 0 :=
  ⟨rfl, Nat.le_refl 0, fun _ h => absurd h List.not_mem_nil, List.Pairwise.nil⟩

omit [Scalar α] in
theorem later (h : record.Numbered k) : record.Numbered (k + 1) :=
  ⟨h.size, Nat.le_succ_of_le h.most, fun it hit => Nat.le_succ_of_le (h.within it hit),
    h.increasing⟩

omit [Scalar α] in
theorem push (h : record.Numbered k) {it : IterationRecord α} (hit : it.iteration = k + 1) :
    (record.push it).Numbered (k + 1) := by
  refine ⟨?_, Nat.succ_le_succ h.most, fun other hother => ?_, ?_⟩
  · simp [RunRecord.push, h.size]
  · rw [record.push_trace] at hother
    obtain hold | hnew := List.mem_append.1 hother
    · exact Nat.le_succ_of_le (h.within other hold)
    · exact List.mem_singleton.1 hnew ▸ Nat.le_of_eq hit
  · rw [record.push_trace]
    refine List.pairwise_append.2
      ⟨h.increasing, List.pairwise_singleton _ it, fun old hold new hnew => ?_⟩
    rw [List.mem_singleton.1 hnew, hit]
    exact Nat.lt_succ_of_le (h.within old hold)

end RunRecord.Numbered

/-- The numbers on record at a position after `k` iterations, and the count of moves since `s`. -/
structure Tally (s : Session α σ n) (k : Nat) (record : RunRecord α) (u : Session α σ n) :
    Prop where
  numbered : record.Numbered k
  moves : u.counters.iterations = s.counters.iterations + record.iterations

namespace Tally
variable {k : Nat} {record : RunRecord α}

omit [Scalar α] in
theorem stay (h : Tally s k record u) (huv : SameMoves u v) : Tally s (k + 1) record v :=
  ⟨h.numbered.later, huv.trans h.moves⟩

omit [Scalar α] in
theorem move (h : Tally s k record u) {it : IterationRecord α} (hit : it.iteration = k + 1)
    (huv : v.counters.iterations = u.counters.iterations + 1) :
    Tally s (k + 1) (record.push it) v := by
  refine ⟨h.numbered.push hit, ?_⟩
  rw [huv, h.moves, Nat.add_assoc]
  rfl

end Tally

/-! ## Damped attempts -/

theorem Walk.numbered {descent : Bool} {k : Nat} {path : List (Waypoint α n)}
    {progress : Progress α n} (h : Walk P tol descent s k path progress u) :
    Tally s k progress.record u ∧ k ≤ P.options.maxIterations := by
  have begun : ∀ {answer : Except Mishap (Vector α n)} {t : Session α σ n},
      evaluate P s.x s.cleared = .ok answer t → SameMoves s t := fun hf => (evaluate_moves hf :)
  have headed : ∀ {u v : Session α σ n} {tighten : Bool} {k : Nat} {f : Vector α n} {norm : α}
      {record : RunRecord α} {found : Attempt α ⊕ Heading α n},
      heading P tol descent tighten k f norm record u = .ok found v → SameMoves u v :=
    fun hheading => ((course_heading P _ _ _ _ _ _ _).ok hheading).spot_moves
  have searched : ∀ {u v w : Session α σ n} {tighten : Bool} {k : Nat} {f : Vector α n} {norm : α}
      {record : RunRecord α} {h : Heading α n} {x : Vector α n}
      {answer : Except FailureReason (Accepted α n)},
      heading P tol descent tighten k f norm record u = .ok (.inr h) v →
      h.search P tol x f v = .ok answer w → SameMoves u w :=
    fun hheading hsearch => (Heading.course_search _ hsearch).moves.trans (headed hheading)
  induction h with
  | undefined hf => exact ⟨⟨.blank 0, begun hf⟩, Nat.zero_le _⟩
  | solved hf _ => exact ⟨⟨.blank _, (begun hf :)⟩, Nat.zero_le _⟩
  | start hf _ => exact ⟨⟨.blank _, (begun hf :)⟩, Nat.zero_le _⟩
  | exhausted _ _ ih => exact ih
  | @gaveUp k path f norm record u v attempt _ hk hheading ih =>
    have hrecord : Progress.record (.over attempt : Progress α n) = record :=
      heading_gaveUp hheading
    rw [hrecord]
    exact ⟨ih.1.stay (headed hheading), hk⟩
  | @stays k path f norm record u v w t h reason progress _ hk hheading hsearch hmove ih =>
    have huw : SameMoves u w := searched hheading hsearch
    obtain ⟨hrecord, ⟨_, _, rfl⟩ | ⟨_, rfl⟩⟩ := searchAndMove_stays hsearch hmove
    · rw [hrecord]
      exact ⟨ih.1.stay huw, hk⟩
    · rw [hrecord]
      exact ⟨ih.1.stay huw, hk⟩
  | moves _ hk hheading hsearch hmove ih =>
    obtain ⟨rfl, hrecord, _⟩ := searchAndMove_moves hsearch hmove
    rw [hrecord]
    exact ⟨ih.1.move rfl (congrArg (· + 1) (searched hheading hsearch)), hk⟩

/-! ## Attempts without line search -/

theorem Strides.numbered {k : Nat} {progress : Attempt α ⊕ Vector α n × RunRecord α}
    (h : Strides P tol s k progress u) :
    Tally s k (strideRecord progress) u ∧ k ≤ P.options.maxIterations := by
  induction h with
  | undefined hf => exact ⟨⟨.blank 0, evaluate_moves hf⟩, Nat.zero_le _⟩
  | solved hf _ => exact ⟨⟨.blank _, evaluate_moves hf⟩, Nat.zero_le _⟩
  | start hf _ => exact ⟨⟨.blank _, evaluate_moves hf⟩, Nat.zero_le _⟩
  | exhausted _ _ ih => exact ih
  | next _ hk hrun ih =>
    obtain ⟨_, rfl, huv⟩ | ⟨it, _, hstep, hrecord, _⟩ := iterateUndamped_cases hrun
    · exact ⟨ih.1.stay huv.moves, hk⟩
    · rw [hrecord]
      obtain ⟨_, _, _, _, w, hp, hc, he, rfl⟩ := hstep.taken
      have hprepared := (course_prepareJacobian P _ _ _).ok hp
      have huw := (hprepared.trans ((course_computeStep P _ _).ok hc)).trans
        ((course_evaluate P _).ok he)
      exact ⟨ih.1.move hstep.numbered (congrArg (· + 1) huw.moves), hk⟩

theorem stepDirectly_numbered {x f : Vector α n} {norm : α} {usable : Bool} {attempt : Attempt α}
    (h : stepDirectly P tol x f norm usable s = .ok attempt t) : Tally s 1 attempt.record t := by
  have blank : Tally s 0 { RunRecord.empty with residualNorm := norm } s := ⟨.blank norm, rfl⟩
  obtain ⟨hrecord, hst⟩ | ⟨_, _, _, it, hu, hmoved, hrecord, hiteration, _⟩ := stepDirectly_cases h
  · rw [hrecord]
    exact blank.stay hst.moves
  · rw [hrecord]
    exact blank.move hiteration (hmoved.trans (congrArg (· + 1) (evaluate_moves hu)))

theorem runDirect_numbered {attempt : Attempt α} (h : runDirect P tol s = .ok attempt t) :
    Tally s 1 attempt.record t := by
  have blank : ∀ (norm : α) {u}, SameMoves s u →
      Tally s 1 { RunRecord.empty with residualNorm := norm } u := fun norm _ hu =>
    ⟨(RunRecord.Numbered.blank norm).later, hu⟩
  rw [runDirect_eq, get_bind_apply] at h
  obtain ⟨answer, u, hu, h⟩ := bind_eq_ok.1 h
  have hsu := evaluate_moves hu
  cases answer with
  | error mishap =>
    cases h
    exact blank 0 hsu
  | ok f =>
    dsimp only at h
    rw [get_bind_apply] at h
    obtain ⟨status, v, hv, h⟩ := bind_eq_ok.1 h
    have hsv : SameMoves s v := ((course_prepareJacobian P _ _ _).ok hv).moves.trans hsu
    cases status with
    | error mishap =>
      cases h
      exact blank _ hsv
    | ok fresh =>
      obtain ⟨usable, w, hw, h⟩ := bind_eq_ok.1 h
      have hvw : SameMoves v w := by
        obtain ⟨_, _, rfl⟩ | ⟨_, hw⟩ := secureFactors_cases hw
        · rfl
        · exact ((course_factorDirect P).ok hw).moves
      have hstep := stepDirectly_numbered h
      exact ⟨hstep.numbered, by rw [hstep.moves, hvw, hsv]⟩

/-- What an attempt of a solve has on record when it is over. -/
theorem Trial.numbered {run : Action α σ n (Attempt α)}
    {turns : Nat → Vector α n → Session α σ n → Prop} {attempt : Attempt α}
    (h : Trial P s run t turns) (hrun : run t = .ok attempt u) :
    ∃ k, Tally t k attempt.record u ∧
      (P.options.method ≠ .direct → k ≤ P.options.maxIterations) := by
  cases h with
  | damped _ _ =>
    obtain ⟨k, _, hwalk⟩ := runDamped_eq_ok.1 hrun
    exact ⟨k, hwalk.numbered.1, fun _ => hwalk.numbered.2⟩
  | undamped _ _ =>
    obtain ⟨k, hstrides⟩ := (runUndamped_after P _ _).ok hrun
    exact ⟨k, hstrides.numbered.1, fun _ => hstrides.numbered.2⟩
  | direct hmethod _ => exact ⟨1, runDirect_numbered hrun, fun h => absurd hmethod h⟩

/-! ## The attempts of a solve -/

/-- The solve from `s` makes an attempt that comes to this end. -/
def Makes (P : Problem α σ n) (s : Session α σ n) (attempt : Attempt α) : Prop :=
  ∃ run t turns u, Trial P s run t turns ∧ run t = .ok attempt u

/-- The report sums up these attempts of the solve from `s`, which has come to `u`. -/
structure Accounts (P : Problem α σ n) (s : Session α σ n) (report : Report α)
    (attempts : List (Attempt α)) (u : Session α σ n) : Prop where
  made : ∀ attempt ∈ attempts, Makes P s attempt
  count : report.attempts = attempts.length
  iterations : report.iterations = report.trace.size
  trace : report.trace.toList = attempts.flatMap fun attempt => attempt.record.trace.toList
  moves : u.counters.iterations = s.counters.iterations + report.iterations

namespace Accounts
variable {report : Report α} {attempts : List (Attempt α)}

theorem empty (h : SameMoves s u) :
    Accounts P s Report.empty [] u :=
  ⟨fun _ h => absurd h List.not_mem_nil, rfl, rfl, rfl, h⟩

theorem keep (h : Accounts P s report attempts u) (huv : SameMoves u v) :
    Accounts P s report attempts v :=
  ⟨h.made, h.count, h.iterations, h.trace, huv.trans h.moves⟩

theorem refined (h : Accounts P s report attempts u) (refined : Bool) :
    Accounts P s { report with refined } attempts u :=
  ⟨h.made, h.count, h.iterations, h.trace, h.moves⟩

/-- One more attempt of the solve. -/
theorem add (h : Accounts P s report attempts u) {run : Action α σ n (Attempt α)}
    {turns : Nat → Vector α n → Session α σ n → Prop} {attempt : Attempt α}
    (htrial : Trial P s run t turns) (hut : SameMoves u t)
    (hrun : run t = .ok attempt v) :
    Accounts P s (report.add attempt) (attempts ++ [attempt]) v := by
  obtain ⟨_, htally, _⟩ := htrial.numbered hrun
  refine ⟨fun other hother => ?_, ?_, ?_, ?_, ?_⟩
  · obtain hold | hnew := List.mem_append.1 hother
    · exact h.made other hold
    · rw [List.mem_singleton.1 hnew]
      exact ⟨run, t, turns, v, htrial, hrun⟩
  · rw [List.length_append, ← h.count]
    rfl
  · rw [Report.add, Array.size_append, ← h.iterations, ← htally.numbered.size]
  · rw [List.flatMap_append, ← h.trace]
    simp [Report.add]
  · rw [htally.moves, hut, h.moves, Nat.add_assoc]
    rfl

end Accounts

/-! ## The attempts of the damped method -/

theorem openSolve_moves {first : Bool} (h : openSolve P s = .ok first u) :
    SameMoves s u := (surrounding_still P).openSolve.ok h

theorem firstAttempt_accounts {first : Bool} {standing : Standing α}
    (hmethod : P.options.method = .damped) (hopen : openSolve P s = .ok first u)
    (h : firstAttempt P u = .ok standing v) :
    ∃ attempt, Accounts P s standing.report [attempt] v := by
  unfold firstAttempt at h
  rw [modifyWork_bind_apply] at h
  obtain ⟨attempt, t, ht, h⟩ := bind_eq_ok.1 h
  rw [modifyWork_bind_apply] at h
  obtain ⟨⟨refinement, refined⟩, w, hw, h⟩ := bind_eq_ok.1 h
  cases h
  have hone : Accounts P s (Report.empty.add attempt) [attempt] t :=
    (Accounts.empty (openSolve_moves hopen)).add (.damped hmethod (.first hopen)) rfl ht
  have hkeep := ((surrounding_still P).refineAttempt attempt).ok hw
  exact ⟨attempt, (hone.keep hkeep).refined refined⟩

/-- The report sums up at most one attempt besides these. -/
def Extends (P : Problem α σ n) (s : Session α σ n) (attempts : List (Attempt α))
    (report : Report α) (u : Session α σ n) : Prop :=
  ∃ more : List (Attempt α), more.length ≤ 1 ∧ Accounts P s report (attempts ++ more) u

namespace Accounts
variable {report : Report α} {attempts : List (Attempt α)}

theorem none (h : Accounts P s report attempts u) : Extends P s attempts report u :=
  ⟨[], Nat.zero_le 1, by rwa [List.append_nil]⟩

theorem one {attempt : Attempt α} (h : Accounts P s report (attempts ++ [attempt]) u) :
    Extends P s attempts report u := ⟨[attempt], Nat.le_refl 1, h⟩

end Accounts

section damped
variable {first : Bool} {standing opening rescaled final : Standing α} {w : Session α σ n}
  {attempts : List (Attempt α)}

theorem tryDescent_accounts (hmethod : P.options.method = .damped)
    (hopen : openSolve P s = .ok first u) (hfirst : firstAttempt P u = .ok standing v)
    (hs : Accounts P s standing.report attempts v) (h : tryDescent P standing v = .ok opening w) :
    Extends P s attempts opening.report w := by
  obtain ⟨rfl, rfl⟩ | ⟨attempt, hdue, hrun, rfl⟩ := tryDescent_ok h
  · exact hs.none
  · exact (hs.add (.damped hmethod (.descent hopen hfirst hdue)) rfl hrun).one

theorem tryRescaled_accounts (hmethod : P.options.method = .damped)
    (hopen : openSolve P s = .ok first t) (hfirst : firstAttempt P t = .ok standing u)
    (hdescent : tryDescent P standing u = .ok opening v)
    (hs : Accounts P s opening.report attempts v)
    (h : tryRescaled P first opening v = .ok rescaled w) :
    Extends P s attempts rescaled.report w := by
  obtain ⟨rfl, rfl⟩ | ⟨retry, y, hscaling, hdue, hretry, rfl, rfl⟩ := tryRescaled_ok h
  · exact hs.none
  · obtain ⟨z, z', hz, hrun, rfl⟩ := rescaledRetry_runs hretry
    have hkeep : SameMoves v z := ((course_updateResidualScales P).ok hz).spot_moves
    have htrial := Trial.damped hmethod (.rescaled hopen hfirst hdescent hscaling hdue hz)
    refine ((hs.add htrial hkeep hrun).keep ?_).one
    rfl

theorem tryNominal_accounts (hmethod : P.options.method = .damped)
    (hopen : openSolve P s = .ok first t) (hfirst : firstAttempt P t = .ok standing u)
    (hdescent : tryDescent P standing u = .ok opening v)
    (hrescaled : tryRescaled P first opening v = .ok rescaled w)
    (hs : Accounts P s rescaled.report attempts w) {y : Session α σ n}
    (h : tryNominal P rescaled w = .ok final y) : Extends P s attempts final.report y := by
  obtain ⟨rfl, rfl⟩ | ⟨x, attempt, hdue, hguess, hrun, rfl⟩ := tryNominal_ok h
  · exact hs.none
  · have htrial := Trial.damped hmethod (.nominal hopen hfirst hdescent hrescaled hdue hguess)
    exact (hs.add htrial rfl hrun).one

end damped

/-! ## All attempts of a solve -/

theorem endeavourOnce_accounts {standing : Standing α}
    {run : Problem α σ n → Tolerances α → Action α σ n (Attempt α)}
    {turns : Session α σ n → Nat → Vector α n → Session α σ n → Prop}
    (htrial : ∀ {first t}, setUp P s = .ok first t →
      Trial P s (run P (P.options.plainTolerances n)) { t with phase := .iterating } (turns t))
    (h : endeavourOnce P run s = .ok standing u) :
    ∃ attempts, 1 ≤ attempts.length ∧ attempts.length ≤ 4 ∧
      Accounts P s standing.report attempts u := by
  obtain ⟨_, t, ht, h⟩ := bind_eq_ok.1 h
  obtain ⟨first, t', hsetUp, ht⟩ := bind_eq_ok.1 ht
  cases ht
  rw [modify_bind_apply] at h
  obtain ⟨attempt, v, hv, h⟩ := bind_eq_ok.1 h
  cases h
  have hkeep : SameMoves s t :=
    (surrounding_still P).setUp.ok hsetUp
  have hone := (Accounts.empty hkeep).add (htrial hsetUp) rfl hv
  exact ⟨[attempt], Nat.le_refl 1, Nat.succ_le_succ (Nat.zero_le 3), hone⟩

/-- The report at the end of an endeavour sums up one to four attempts. -/
theorem endeavour_accounts {standing : Standing α} (h : endeavour P s = .ok standing u) :
    ∃ attempts, 1 ≤ attempts.length ∧ attempts.length ≤ 4 ∧
      Accounts P s standing.report attempts u := by
  unfold endeavour at h
  cases hmethod : P.options.method with
  | damped =>
    rw [hmethod] at h
    obtain ⟨first, s₁, hopen, h⟩ := bind_eq_ok.1 h
    obtain ⟨first', s₂, hfirst, h⟩ := bind_eq_ok.1 h
    obtain ⟨opening, s₃, hdescent, h⟩ := bind_eq_ok.1 h
    obtain ⟨rescaled, s₄, hrescaled, hnominal⟩ := bind_eq_ok.1 h
    obtain ⟨attempt, h₂⟩ := firstAttempt_accounts hmethod hopen hfirst
    obtain ⟨more, hmore, h₃⟩ := tryDescent_accounts hmethod hopen hfirst h₂ hdescent
    obtain ⟨more', hmore', h₄⟩ := tryRescaled_accounts hmethod hopen hfirst hdescent h₃ hrescaled
    obtain ⟨more'', hmore'', hall⟩ :=
      tryNominal_accounts hmethod hopen hfirst hdescent hrescaled h₄ hnominal
    refine ⟨_, ?_, ?_, hall⟩
    all_goals
      simp only [List.length_append, List.length_singleton]
      omega
  | undamped =>
    rw [hmethod] at h
    exact endeavourOnce_accounts (fun hsetUp => .undamped hmethod hsetUp) h
  | direct =>
    rw [hmethod] at h
    exact endeavourOnce_accounts (fun hsetUp => .direct hmethod hsetUp) h

end

end AlgebraicLoop
