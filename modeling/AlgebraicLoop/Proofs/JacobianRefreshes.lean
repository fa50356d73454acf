import AlgebraicLoop.Proofs.ReportedAttempts
import AlgebraicLoop.Proofs.RunVerdicts
import AlgebraicLoop.Proofs.SingularRecovery
import AlgebraicLoop.Proofs.StepHistories

/-!
# How often the Jacobian is evaluated

A Jacobian that varies from point to point is evaluated in the first iteration of an attempt, after
as many iterations without an evaluation as the options allow, after a step that stood in for
another and after a search that failed. The age of the Jacobian counts its iterations; it is kept by
everything but an evaluation and the iterations themselves, and an evaluation that is due stays due
until it is made. So the iterations on record show as many evaluations as the options ask for, also
where iterations that found no point lie between them.

* `Refreshed`: what the record of an attempt must show;
* `prepareJacobian_carried`: when an iteration goes without an evaluation;
* `Minded`, `Walk.refreshed`, `Strides.refreshed`: what the workspace knows of the record;
* `iterateDamped_recovery`, `iterateDamped_due`: an iteration after a step by a stand-in;
* `jacobian_refreshes`: attempts, their steps and whole reports.
-/

namespace AlgebraicLoop
set_option autoImplicit false

/-- Did the step stand in for one by the factors of the Jacobian? -/
def StepKind.isRecovery : StepKind → Bool
  | .regularized | .minimumNorm => true
  | .newton | .steepestDescent => false

section
variable {α : Type} {o : Options α} {trace trace' : List (IterationRecord α)}
  {it : IterationRecord α}

/-! ## Records -/

/-- None of the iterations had a fresh Jacobian. -/
def Unrefreshed (trace : List (IterationRecord α)) : Prop := ∀ it ∈ trace, it.freshJacobian = false

/-- The iterations on record had fresh Jacobians as often as the options ask for. -/
structure Refreshed (o : Options α) (trace : List (IterationRecord α)) : Prop where
  first : ∀ it ∈ trace.head?, it.freshJacobian = true
  bounded : ∀ stretch, stretch <:+: trace → Unrefreshed stretch → stretch.length ≤ o.maxJacobianAge
  full : o.jacobianUpdate = .full → ∀ it ∈ trace, it.freshJacobian = true
  recovered : trace.IsChain fun it next => it.stepKind.isRecovery = true → next.freshJacobian = true

namespace Refreshed

theorem nil (o : Options α) : Refreshed o [] where
  first := nofun
  bounded stretch h _ := by
    rw [List.infix_nil.1 h]
    exact Nat.zero_le _
  full _ := nofun
  recovered := List.isChain_nil

/-- One more iteration without a fresh Jacobian. -/
theorem reuse (h : Refreshed o trace) (hsome : trace ≠ [])
    (hage : ∀ stretch, stretch <:+ trace → Unrefreshed stretch → stretch.length < o.maxJacobianAge)
    (hfull : o.jacobianUpdate ≠ .full)
    (hlast : ∀ last ∈ trace.getLast?, last.stepKind.isRecovery = false) :
    Refreshed o (trace ++ [it]) where
  first := by
    rw [List.head?_append_of_ne_nil _ hsome]
    exact h.first
  bounded stretch hstretch hold := by
    obtain hsuffix | hinfix := List.infix_concat_iff.1 hstretch
    · obtain rfl | ⟨before, rfl, hbefore⟩ := List.suffix_concat_iff.1 hsuffix
      · exact Nat.zero_le _
      · rw [List.length_append]
        exact hage before hbefore fun it hit => hold it (List.mem_append_left _ hit)
    · exact h.bounded stretch hinfix hold
  full h := absurd h hfull
  recovered := by
    refine List.isChain_append.2 ⟨h.recovered, List.isChain_singleton _, fun last hl _ _ hr => ?_⟩
    rw [hlast last hl] at hr
    cases hr

/-- A record that begins with a fresh Jacobian may follow on another one. -/
theorem append (h : Refreshed o trace) (h' : Refreshed o trace') :
    Refreshed o (trace ++ trace') where
  first it hit := by
    cases trace with
    | nil => exact h'.first it hit
    | cons first rest => exact h.first it hit
  bounded stretch hstretch hold := by
    obtain hleft | hright | ⟨before, after, rfl, hbefore, hafter⟩ :=
      List.infix_append_iff.1 hstretch
    · exact h.bounded stretch hleft hold
    · exact h'.bounded stretch hright hold
    · cases after with
      | nil =>
        rw [List.append_nil] at hold ⊢
        exact h.bounded before hbefore.isInfix hold
      | cons it rest =>
        -- A stretch that reaches into the second record meets its fresh beginning.
        obtain ⟨_, rfl⟩ := hafter
        have hfresh := h'.first it rfl
        rw [hold it (List.mem_append_right _ (List.mem_cons_self ..))] at hfresh
        cases hfresh
  full hfull it hit := (List.mem_append.1 hit).elim (h.full hfull it) (h'.full hfull it)
  recovered := List.isChain_append.2
    ⟨h.recovered, h'.recovered, fun _ _ it hit _ => h'.first it hit⟩

theorem flatMap {β : Type} {record : β → List (IterationRecord α)} {bs : List β}
    (h : ∀ b ∈ bs, Refreshed o (record b)) : Refreshed o (bs.flatMap record) := by
  induction bs with
  | nil => exact nil o
  | cons b bs ih =>
    rw [List.flatMap_cons]
    obtain ⟨hb, hbs⟩ := List.forall_mem_cons.1 h
    exact hb.append (ih hbs)

/-- One more iteration with a fresh Jacobian. -/
theorem refresh (h : Refreshed o trace) (hit : it.freshJacobian = true) :
    Refreshed o (trace ++ [it]) := by
  refine h.append ⟨fun _ h => ?_, fun stretch hstretch hold => ?_, fun _ _ h => ?_,
    List.isChain_singleton it⟩
  · obtain rfl := Option.some.inj h
    exact hit
  · cases stretch with
    | nil => exact Nat.zero_le _
    | cons other rest =>
      obtain rfl := List.mem_singleton.1 (hstretch.mem (List.mem_cons_self ..))
      rw [hold _ (List.mem_cons_self ..)] at hit
      cases hit
  · rw [List.mem_singleton.1 h]
    exact hit

end Refreshed

end

section
variable {α σ : Type} [Scalar α] {n : Nat} {P : Problem α σ n} {tol : Tolerances α}
  {s t u v w : Session α σ n}

/-! ## The age of a Jacobian -/

/-- The action keeps the age of the Jacobian. -/
abbrev Ageless {β : Type} (a : Action α σ n β) : Prop :=
  Follows (fun s t : Session α σ n => t.work.jacobianAge = s.work.jacobianAge) a

theorem closed_ageless (P : Problem α σ n) :
    Closed P true (fun s : Session α σ n => s.work.jacobianAge) fun _ a => Ageless a :=
  closed_still P true (fun _ _ _ _ _ _ => rfl) fun _ _ _ => rfl

theorem ageless_storeScales (P : Problem α σ n) (raw : Vector α n) :
    Ageless (storeScales P.options raw : Action α σ n Unit) := by
  refine (closed_ageless P).each _ (fun i s => ?_) _
  unfold storeScale
  dsimp only
  split
  · exact rfl
  · exact rfl

theorem ageless_tightenedNorm (P : Problem α σ n) (tighten : Bool) (iteration : Nat) (fresh : Bool)
    (x f : Vector α n) (norm : α) :
    Ageless (tightenedNorm P tighten iteration fresh x f norm) := by
  have hC := closed_ageless P
  unfold tightenedNorm
  split
  · refine hC.seq (hC.read (fun _ _ => rfl) fun s => ageless_storeScales P _) fun _ => ?_
    exact hC.read (fun _ _ => rfl) fun _ => hC.value _
  · exact hC.value _

theorem ageless_factorize : Ageless (factorize : Action α σ n Bool) := by
  intro s
  unfold After
  obtain ⟨_, _, _, hrun⟩ | ⟨_, _, hrun⟩ := factorize_cases s
  · rw [hrun]
    rfl
  · rw [hrun]
    rfl

theorem ageless_afterRecoveryStep (P : Problem α σ n) : Ageless (afterRecoveryStep P) :=
  (closed_ageless P).afterRecoveryStep_of (fun _ => rfl) (fun _ => rfl) fun _ => rfl

theorem ageless_stepByFactors (P : Problem α σ n) (f : Vector α n) (stepTolerance : α)
    (usable : Bool) : Ageless (stepByFactors P f stepTolerance usable) := by
  have hC := closed_ageless P
  refine hC.read (fun _ _ => rfl) fun s => ?_
  dsimp only
  split
  · exact hC.value _
  · split
    · exact hC.value _
    · split
      · exact hC.seq (ageless_afterRecoveryStep P) fun _ => hC.value _
      · exact hC.value _

theorem ageless_computeStep (P : Problem α σ n) (f : Vector α n) (stepTolerance : α) :
    Ageless (computeStep P f stepTolerance) := by
  have hC := closed_ageless P
  rw [computeStep_eq]
  refine hC.seq (hC.read (fun _ _ => rfl) fun s => ?_) (ageless_stepByFactors P f stepTolerance)
  split
  · exact hC.value _
  · exact ageless_factorize

/-- A step of this kind, or one of steepest descent, and a Jacobian of the same age. -/
def Directed (kind : StepKind) (s : Session α σ n) (chosen : Vector α n × StepKind)
    (t : Session α σ n) : Prop :=
  (chosen.2 = kind ∨ chosen.2 = .steepestDescent) ∧ t.work.jacobianAge = s.work.jacobianAge

theorem directed_whenActive (P : Problem α σ n) (x f step : Vector α n) (kind : StepKind)
    (s : Session α σ n) :
    After (whenActive P x f step kind) s (Directed kind s) fun _ _ => True := by
  unfold whenActive
  rw [after_congr (get_bind_apply _ _)]
  dsimp only
  split
  · exact ⟨.inr rfl, rfl⟩
  · exact ⟨.inl rfl, rfl⟩

theorem directed_boundedStep (P : Problem α σ n) (x f step : Vector α n) (kind : StepKind)
    (s : Session α σ n) :
    After (boundedStep P x f step kind) s (Directed kind s) fun _ _ => True := by
  rw [boundedStep_eq]
  split
  · refine ((closed_ageless P).limit x step s).mono (fun _ _ _ h => h) (fun _ _ _ _ => trivial)
      |>.bind fun limit t ht => ?_
    have noted : ∀ {u : Session α σ n} {chosen : Vector α n × StepKind}, Directed kind s chosen u →
        After (tellLimiting limit chosen) u (Directed kind s) fun _ _ => True := by
      intro u chosen hu
      unfold tellLimiting
      split
      · exact hu
      · exact hu
    dsimp only
    split
    · exact noted (u := { t with work := { t.work with flags.useSteepestDescent := false } })
        ⟨.inl rfl, ht⟩
    · rw [after_congr (notify_bind_apply _ _ _)]
      exact (directed_whenActive P x f limit.step kind _).bind fun chosen u hu =>
        noted ⟨hu.1, hu.2.trans ht⟩
  · exact ⟨.inl rfl, rfl⟩

theorem directed_searchDirection (P : Problem α σ n) (descent : Bool) (x f step : Vector α n)
    (kind : StepKind) (s : Session α σ n) :
    After (searchDirection P descent x f step kind) s (Directed kind s) fun _ _ => True := by
  unfold searchDirection
  rw [after_congr (get_bind_apply _ _)]
  dsimp only
  split
  · exact (directed_boundedStep P x f _ .steepestDescent s).mono
      (fun _ _ _ h => ⟨.inr (h.1.elim id id), h.2⟩) fun _ _ _ _ => trivial
  · exact directed_boundedStep P x f _ kind s

/-! ## Steps that stand in for others -/

/-- A Jacobian that is as old as the one before, and due for an evaluation if that was. -/
structure Retains (s t : Session α σ n) : Prop where
  age : t.work.jacobianAge = s.work.jacobianAge
  forced : s.work.flags.forceNewJacobian = true → t.work.flags.forceNewJacobian = true
  factorization : t.work.factorization = s.work.factorization

theorem factoredStep?_recovery {w : Workspace α n} {nominal f step : Vector α n}
    {stepTolerance : α} {kind : StepKind}
    (h : factoredStep? w nominal f stepTolerance = some (step, kind)) :
    kind.isRecovery = w.factorization.isRecovery := by
  unfold factoredStep? at h
  cases hfactors : w.factorization with
  | none =>
    rw [hfactors] at h
    cases h
  | _ =>
    rw [hfactors] at h
    cases h
    rfl

/-- A step that stands in for another makes an evaluation of the Jacobian due. -/
theorem afterRecoveryStep_forced (P : Problem α σ n) (s : Session α σ n) :
    After (afterRecoveryStep P) s (fun _ t => t.work.flags.forceNewJacobian = true)
      fun _ _ => True :=
  -- The evaluation is made due before anything else, so it might have been due from the start.
  (aside_afterRecoveryStep P s.pressed).mono (fun _ _ _ h => h.forced rfl) fun _ _ _ _ => trivial

theorem stepByFactors_forced {f step : Vector α n} {stepTolerance : α} {usable : Bool}
    {kind : StepKind} (h : stepByFactors P f stepTolerance usable s = .ok (some (step, kind)) t) :
    kind.isRecovery = t.work.factorization.isRecovery ∧
      (kind.isRecovery = true → t.work.flags.forceNewJacobian = true) := by
  have hfactors := ((aside_stepByFactors P f stepTolerance usable).ok h).factorization
  obtain ⟨_, _, hfound, hrest⟩ := stepByFactors_found h
  rw [hfactors]
  refine ⟨factoredStep?_recovery hfound, fun hrecovery => ?_⟩
  obtain ⟨_, rfl⟩ | hrest := hrest
  · cases hrecovery
  · exact (afterRecoveryStep_forced P s).ok hrest

theorem computeStep_forced {f step : Vector α n} {stepTolerance : α} {kind : StepKind}
    (h : computeStep P f stepTolerance s = .ok (some (step, kind)) t) :
    kind.isRecovery = t.work.factorization.isRecovery ∧
      (kind.isRecovery = true → t.work.flags.forceNewJacobian = true) := by
  rw [computeStep_eq] at h
  obtain ⟨_, _, _, h⟩ := bind_eq_ok.1 h
  exact stepByFactors_forced h

/-! ## Iterations without an evaluation -/

/-- An iteration goes without an evaluation of the Jacobian only if none is due, and makes the
Jacobian older. -/
structure CarriedOver (P : Problem α σ n) (iteration : Nat) (s t : Session α σ n) : Prop where
  unforced : s.work.flags.forceNewJacobian = false
  later : iteration ≠ 1
  partly : P.options.jacobianUpdate ≠ .full
  young : s.work.jacobianAge < P.options.maxJacobianAge
  older : t.work.jacobianAge = s.work.jacobianAge + 1

theorem planJacobian_carried {o : Options α} {event : Bool} {w : Workspace α n} {k : Nat}
    {f : Vector α n} (hevaluate : planJacobian o .continuous event w k f ≠ .evaluate)
    (hfresh : planJacobian o .continuous event w k f ≠ .alreadyFresh) :
    w.flags.forceNewJacobian = false ∧ k ≠ 1 ∧ o.jacobianUpdate ≠ .full ∧
      w.jacobianAge < o.maxJacobianAge := by
  unfold planJacobian at hevaluate hfresh
  split at hevaluate
  · exact absurd rfl hevaluate
  · next hforced =>
    rw [if_neg hforced] at hfresh
    have hunforced : w.flags.forceNewJacobian = false := by simpa using (not_or.1 hforced).1
    split at hevaluate
    · next hpoint =>
      rw [if_pos hpoint] at hfresh
      exact absurd rfl hfresh
    · split at hevaluate
      · exact absurd rfl hevaluate
      · next hk =>
        split at hevaluate
        · next hvaries => cases hvaries
        · split at hevaluate
          · exact absurd rfl hevaluate
          · next hfull =>
            split at hevaluate
            · exact absurd rfl hevaluate
            · next hage => exact ⟨hunforced, hk, hfull, Nat.lt_of_not_le hage⟩

theorem prepareJacobian_carried (hvariability : P.variability = .continuous) {k : Nat}
    {x f : Vector α n} (h : prepareJacobian P k x f s = .ok (.ok false) t) :
    CarriedOver P k s t := by
  have holder : t.work.jacobianAge = s.work.jacobianAge + 1 := by
    obtain rfl | ⟨_, J, _, rfl⟩ := prepareJacobian_unevaluated h
    · rfl
    · rfl
  have hplan : planJacobian P.options P.variability s.eventSinceJacobian s.work k f ≠ .evaluate ∧
      planJacobian P.options P.variability s.eventSinceJacobian s.work k f ≠ .alreadyFresh := by
    unfold prepareJacobian at h
    rw [get_bind_apply] at h
    refine ⟨fun hplan => ?_, fun hplan => ?_⟩
    all_goals
      rw [hplan] at h
    · obtain ⟨answer, _, _, h⟩ := bind_eq_ok.1 h
      cases answer with
      | error _ => cases h
      | ok _ => cases h
    · cases h
  rw [hvariability] at hplan
  obtain ⟨hunforced, hk, hfull, hage⟩ := planJacobian_carried hplan.1 hplan.2
  exact ⟨hunforced, hk, hfull, hage, holder⟩

/-! ## Positions of an attempt -/

/-- What the workspace knows of the record after `k` iterations: how long the Jacobian was not
evaluated, and that an evaluation is due after a step that stood in for another. -/
structure Minded (o : Options α) (k : Nat) (trace : List (IterationRecord α))
    (w : Workspace α n) : Prop where
  refreshed : Refreshed o trace
  begun : trace = [] → k = 0
  aged : ∀ stretch, stretch <:+ trace → Unrefreshed stretch → stretch.length ≤ w.jacobianAge
  due : ∀ last ∈ trace.getLast?, last.stepKind.isRecovery = true →
    w.flags.forceNewJacobian = true

namespace Minded
variable {k : Nat} {trace : List (IterationRecord α)} {f : Vector α n}

omit [Scalar α] in
theorem nil (o : Options α) (w : Workspace α n) : Minded o 0 [] w where
  refreshed := .nil o
  begun _ := rfl
  aged stretch h _ := by
    rw [List.suffix_nil.1 h]
    exact Nat.zero_le _
  due := nofun

omit [Scalar α] in
/-- An iteration that found no point with a Jacobian that was not fresh. -/
theorem skip (h : Minded P.options k trace u.work) (hcarried : CarriedOver P (k + 1) u v)
    (hage : w.work.jacobianAge = v.work.jacobianAge)
    (hforced : w.work.flags.forceNewJacobian = true) : Minded P.options (k + 1) trace w.work where
  refreshed := h.refreshed
  begun htrace := absurd (congrArg (· + 1) (h.begun htrace)) hcarried.later
  aged stretch hstretch hold := by
    rw [hage, hcarried.older]
    exact Nat.le_succ_of_le (h.aged stretch hstretch hold)
  due _ _ _ := hforced

/-- An iteration that moved. -/
theorem move (hvariability : P.variability = .continuous) (h : Minded P.options k trace u.work)
    {it : IterationRecord α} {x : Vector α n}
    (hprepare : prepareJacobian P (k + 1) x f u = .ok (.ok it.freshJacobian) v)
    (hage : w.work.jacobianAge = v.work.jacobianAge)
    (hdue : it.stepKind.isRecovery = true → w.work.flags.forceNewJacobian = true) :
    Minded P.options (k + 1) (trace ++ [it]) w.work := by
  have hcarried : it.freshJacobian = false → CarriedOver P (k + 1) u v := by
    intro hit
    rw [hit] at hprepare
    exact prepareJacobian_carried hvariability hprepare
  refine ⟨?_, fun htrace => ?_, fun stretch hstretch hold => ?_, fun last hlast => ?_⟩
  · cases hit : it.freshJacobian with
    | true => exact h.refreshed.refresh hit
    | false =>
      have hcarried := hcarried hit
      refine h.refreshed.reuse (fun htrace => ?_) (fun stretch hstretch hold => ?_) hcarried.partly
        fun last hlast => ?_
      · exact hcarried.later (congrArg (· + 1) (h.begun htrace))
      · exact Nat.lt_of_le_of_lt (h.aged stretch hstretch hold) hcarried.young
      · cases hrecovery : last.stepKind.isRecovery with
        | false => rfl
        | true => exact absurd (h.due last hlast hrecovery) (by simp [hcarried.unforced])
  · exact absurd htrace (List.append_ne_nil_of_right_ne_nil _ (List.cons_ne_nil _ _))
  · obtain rfl | ⟨before, rfl, hbefore⟩ := List.suffix_concat_iff.1 hstretch
    · exact Nat.zero_le _
    · have hit := hold it (List.mem_append_right _ (List.mem_singleton_self it))
      rw [hage, (hcarried hit).older, List.length_append]
      exact Nat.succ_le_succ
        (h.aged before hbefore fun it hit => hold it (List.mem_append_left _ hit))
  · rw [List.getLast?_concat] at hlast
    obtain rfl := Option.some.inj hlast
    exact hdue

end Minded

/-! ## Attempts of the damped method -/

/-- A step to search along has the freshness that its Jacobian was prepared with, and the age that
this left. A factorization that stands in for another makes an evaluation due. -/
theorem heading_due {descent tighten : Bool} {k : Nat} {f : Vector α n} {norm : α}
    {record : RunRecord α} {q : Heading α n}
    (h : heading P tol descent tighten k f norm record s = .ok (.inr q) t) :
    ∃ u, prepareJacobian P k s.x f s = .ok (.ok q.fresh) u ∧
      t.work.jacobianAge = u.work.jacobianAge ∧
      (t.work.factorization.isRecovery = true → t.work.flags.forceNewJacobian = true) ∧
      (q.kind.isRecovery = true → t.work.flags.forceNewJacobian = true) := by
  obtain ⟨u, v, w, step, kind, hu, hv, hw, ht⟩ := heading_eq_ok h
  have huv := (ageless_tightenedNorm P tighten k q.fresh s.x f norm).ok hv
  have hvw := (ageless_computeStep P f tol.step).ok hw
  obtain ⟨hchosen, hwt⟩ := (directed_searchDirection P descent s.x f step kind w).ok ht
  have haside := (aside_searchDirection P descent s.x f step kind).ok ht
  obtain ⟨hfactors, hforced⟩ := computeStep_forced hw
  refine ⟨u, hu, hwt.trans (hvw.trans huv), fun hrecovery => ?_, fun hrecovery => ?_⟩
  · rw [haside.factorization, ← hfactors] at hrecovery
    exact haside.forced (hforced hrecovery)
  · obtain hkind | hdescent := hchosen
    · dsimp only at hkind
      rw [hkind] at hrecovery
      exact haside.forced (hforced hrecovery)
    · dsimp only at hdescent
      rw [hdescent] at hrecovery
      cases hrecovery

theorem Heading.search_retains {h : Heading α n} {x f : Vector α n}
    {answer : Except FailureReason (Accepted α n)} (hrun : h.search P tol x f s = .ok answer t) :
    Retains s t := by
  have haside : Aside (h.facing s) t := (aside_lineSearch P x f h.step _ tol.step).ok hrun
  have hage : t.work.jacobianAge = (h.facing s).work.jacobianAge :=
    ((closed_ageless P).lineSearch (fun _ => rfl) x f h.step _ tol.step).ok hrun
  exact ⟨hage, haside.forced, haside.factorization⟩

/-- At every position of an attempt the record is as it must be, and where the attempt goes on the
workspace knows enough of it. -/
theorem Walk.refreshed (hvariability : P.variability = .continuous) {descent : Bool} {k : Nat}
    {path : List (Waypoint α n)} {progress : Progress α n}
    (h : Walk P tol descent s k path progress u) :
    Refreshed P.options progress.record.trace.toList ∧
      ∀ f norm record, progress = .onward f norm record →
        Minded P.options k record.trace.toList u.work := by
  induction h with
  | undefined _ => exact ⟨.nil _, fun _ _ _ h => by cases h⟩
  | solved _ _ => exact ⟨.nil _, fun _ _ _ h => by cases h⟩
  | start _ _ =>
    refine ⟨.nil _, fun f norm record hprogress => ?_⟩
    cases hprogress
    exact .nil _ _
  | exhausted _ _ ih => exact ⟨ih.1, fun _ _ _ h => by cases h⟩
  | gaveUp _ _ hheading ih =>
    rw [Progress.record, heading_gaveUp hheading]
    exact ⟨ih.1, fun _ _ _ h => by cases h⟩
  | stays _ _ hheading hsearch hmove ih =>
    obtain ⟨hrecord, hcases⟩ := searchAndMove_stays hsearch hmove
    rw [hrecord]
    refine ⟨ih.1, fun f norm record hprogress => ?_⟩
    obtain ⟨rfl, hstale, rfl⟩ | ⟨⟨_, rfl⟩, _⟩ := hcases
    · cases hprogress
      obtain ⟨v, hprepare, hage, _⟩ := heading_due hheading
      rw [hstale] at hprepare
      have hcarried := prepareJacobian_carried hvariability hprepare
      have hsearched := Heading.search_retains hsearch
      exact (ih.2 _ _ _ rfl).skip hcarried (hsearched.age.trans hage) rfl
    · cases hprogress
  | @moves k path f norm record u v w t q a progress _ _ hheading hsearch hmove ih =>
    obtain ⟨rfl, hrecord, _⟩ := searchAndMove_moves hsearch hmove
    obtain ⟨y, hprepare, hage, _, hdue⟩ := heading_due hheading
    have hsearched := Heading.search_retains hsearch
    have hminded : Minded P.options (k + 1)
        (record.trace.toList ++ [q.stride (k + 1) u.x v w a]) (w.moved u.x f a).work :=
      (ih.2 _ _ _ rfl).move hvariability hprepare (hsearched.age.trans hage)
        fun hit => hsearched.forced (hdue hit)
    rw [hrecord, RunRecord.push_trace]
    refine ⟨hminded.refreshed, fun f norm record hprogress => ?_⟩
    obtain rfl : record = _ := (congrArg Progress.record hprogress).symm.trans hrecord
    rw [RunRecord.push_trace]
    exact hminded

/-! ## Attempts without line search -/

theorem evaluate_retains {x : Vector α n} {answer : Except Mishap (Vector α n)}
    (h : evaluate P x s = .ok answer t) : Retains s t := by
  have hwork := evaluate_work h
  exact ⟨congrArg (·.jacobianAge) hwork, (congrArg (·.flags.forceNewJacobian) hwork).trans,
    congrArg (·.factorization) hwork⟩

theorem Strides.refreshed (hvariability : P.variability = .continuous) {k : Nat}
    {progress : Attempt α ⊕ Vector α n × RunRecord α} (h : Strides P tol s k progress u) :
    Refreshed P.options (strideRecord progress).trace.toList ∧
      ∀ f record, progress = .inr (f, record) → Minded P.options k record.trace.toList u.work := by
  induction h with
  | undefined _ => exact ⟨.nil _, nofun⟩
  | solved _ _ => exact ⟨.nil _, nofun⟩
  | start _ _ =>
    refine ⟨.nil _, fun f record hprogress => ?_⟩
    cases hprogress
    exact .nil _ _
  | exhausted _ _ ih => exact ⟨ih.1, nofun⟩
  | @next k f record u v progress _ _ hrun ih =>
    obtain ⟨_, rfl, _⟩ | ⟨it, g, hstep, hrecord, _⟩ := iterateUndamped_cases hrun
    · exact ⟨ih.1, nofun⟩
    · obtain ⟨_, y, _, _, w, hprepare, hcompute, heval, rfl⟩ := hstep.taken
      have hage := (ageless_computeStep P f tol.step).ok hcompute
      have hforced := (computeStep_forced hcompute).2
      have heval := evaluate_retains heval
      have hminded : Minded P.options (k + 1) (record.trace.toList ++ [it])
          (w.strode u.x f y).work :=
        (ih.2 _ _ rfl).move hvariability hprepare (heval.age.trans hage)
          fun hit => heval.forced (hforced hit)
      rw [hrecord, RunRecord.push_trace]
      refine ⟨hminded.refreshed, fun f record hprogress => ?_⟩
      obtain rfl : record = _ := (congrArg strideRecord hprogress).symm.trans hrecord
      rw [RunRecord.push_trace]
      exact hminded

/-! ## After a factorization that stood in for another -/

/-- A Jacobian that is due for an evaluation is evaluated before it is used again. -/
theorem prepareJacobian_due (hvariability : P.variability = .continuous)
    (hdue : s.work.flags.forceNewJacobian = true) {k : Nat} {x f : Vector α n} {fresh : Bool}
    (h : prepareJacobian P k x f s = .ok (.ok fresh) t) : fresh = true := by
  cases fresh with
  | true => rfl
  | false =>
    have hcarried := prepareJacobian_carried hvariability h
    rw [hcarried.unforced] at hdue
    cases hdue

/-- An iteration that goes on after a step by what stood in for the Jacobian leaves that due for an
evaluation. -/
theorem iterateDamped_recovery {descent tighten : Bool} {k : Nat} {f f' : Vector α n}
    {norm norm' : α} {record record' : RunRecord α}
    (h : iterateDamped P tol descent tighten k f norm record s = .ok (.onward f' norm' record') t)
    (hrecovery : t.work.factorization.isRecovery = true) :
    t.work.flags.forceNewJacobian = true := by
  rw [iterateDamped_eq, get_bind_apply] at h
  obtain ⟨found, u, hu, h⟩ := bind_eq_ok.1 h
  cases found with
  | inl attempt => cases h
  | inr q =>
    obtain ⟨_, _, _, hdue, _⟩ := heading_due hu
    obtain ⟨answer, v, hv⟩ := searchAndMove_searches h
    cases answer with
    | error reason =>
      obtain ⟨_, ⟨_, _, rfl⟩ | ⟨⟨_, hover⟩, _⟩⟩ := searchAndMove_stays hv h
      · rfl
      · cases hover
    | ok a =>
      obtain ⟨rfl, _⟩ := searchAndMove_moves hv h
      have hsearched := Heading.search_retains hv
      have hused : v.work.factorization.isRecovery = true := hrecovery
      rw [hsearched.factorization] at hused
      exact hsearched.forced (hdue hused)

theorem iterateDamped_due (hvariability : P.variability = .continuous)
    (hdue : s.work.flags.forceNewJacobian = true) {descent tighten : Bool} {k : Nat}
    {f : Vector α n} {norm : α} {record : RunRecord α} {progress : Progress α n}
    (h : iterateDamped P tol descent tighten k f norm record s = .ok progress t) :
    progress.record = record ∨
      ∃ it, progress.record = record.push it ∧ it.freshJacobian = true := by
  rw [iterateDamped_eq, get_bind_apply] at h
  obtain ⟨found, u, hu, h⟩ := bind_eq_ok.1 h
  cases found with
  | inl attempt =>
    cases h
    exact .inl (heading_gaveUp hu)
  | inr q =>
    obtain ⟨_, hprepare, _⟩ := heading_due hu
    have hfresh := prepareJacobian_due hvariability hdue hprepare
    obtain ⟨answer, v, hv⟩ := searchAndMove_searches h
    cases answer with
    | error reason => exact .inl (searchAndMove_stays hv h).1
    | ok a => exact .inr ⟨_, (searchAndMove_moves hv h).2.1, hfresh⟩

theorem iterateUndamped_recovery {k : Nat} {f f' : Vector α n} {record record' : RunRecord α}
    (h : iterateUndamped P tol k f record s = .ok (.inr (f', record')) t)
    (hrecovery : t.work.factorization.isRecovery = true) :
    t.work.flags.forceNewJacobian = true := by
  obtain ⟨_, hstopped, _⟩ | ⟨_, _, hstep, _⟩ := iterateUndamped_cases h
  · cases hstopped
  · obtain ⟨_, _, _, _, w, _, hcompute, heval, rfl⟩ := hstep.taken
    obtain ⟨hfactors, hforced⟩ := computeStep_forced hcompute
    have heval := evaluate_retains heval
    have hused : w.work.factorization.isRecovery = true := hrecovery
    rw [heval.factorization] at hused
    exact heval.forced (hforced (hfactors.trans hused))

theorem iterateUndamped_due (hvariability : P.variability = .continuous)
    (hdue : s.work.flags.forceNewJacobian = true) {k : Nat} {f : Vector α n}
    {record : RunRecord α} {progress : Attempt α ⊕ Vector α n × RunRecord α}
    (h : iterateUndamped P tol k f record s = .ok progress t) :
    strideRecord progress = record ∨
      ∃ it, strideRecord progress = record.push it ∧ it.freshJacobian = true := by
  obtain ⟨_, rfl, _⟩ | ⟨it, _, hstep, hrecord, _⟩ := iterateUndamped_cases h
  · exact .inl rfl
  · obtain ⟨_, _, _, _, _, hprepare, _⟩ := hstep.taken
    exact .inr ⟨it, hrecord, prepareJacobian_due hvariability hdue hprepare⟩

/-! ## Attempts and reports -/

theorem runDamped_refreshed (hvariability : P.variability = .continuous) {descent : Bool}
    {attempt : Attempt α} (h : runDamped P tol descent s = .ok attempt t) :
    Refreshed P.options attempt.record.trace.toList := by
  obtain ⟨_, _, hwalk⟩ := runDamped_eq_ok.1 h
  exact (hwalk.refreshed hvariability).1

theorem runUndamped_refreshed (hvariability : P.variability = .continuous) {attempt : Attempt α}
    (h : runUndamped P tol s = .ok attempt t) :
    Refreshed P.options attempt.record.trace.toList := by
  obtain ⟨_, hstrides⟩ := (runUndamped_after P tol s).ok h
  exact (hstrides.refreshed hvariability).1

theorem Makes.refreshed (hvariability : P.variability = .continuous)
    (hmethod : P.options.method ≠ .direct) {attempt : Attempt α} (h : Makes P s attempt) :
    Refreshed P.options attempt.record.trace.toList := by
  obtain ⟨_, _, _, _, htrial, hrun⟩ := h
  cases htrial with
  | damped _ _ => exact runDamped_refreshed hvariability hrun
  | undamped _ _ => exact runUndamped_refreshed hvariability hrun
  | direct hdirect _ => exact absurd hdirect hmethod

theorem SolveEnds.refreshed (hvariability : P.variability = .continuous)
    (hmethod : P.options.method ≠ .direct) {report : Report α} (h : SolveEnds P s (.ok report) t) :
    Refreshed P.options report.trace.toList := by
  cases h with
  | @closed standing _ u v w hu hv hw =>
    obtain ⟨_, _, _, _, htrace⟩ := (closeSolve_hands P standing v).ok hw
    obtain ⟨attempts, _, _, hattempts⟩ := endeavour_accounts hv
    rw [htrace, hattempts.trace]
    exact .flatMap fun attempt hattempt =>
      (hattempts.made attempt hattempt).refreshed hvariability hmethod

/-- For a Jacobian that varies from point to point, every attempt, with line search or without, has
iterations on record that had fresh Jacobians as often as the options ask for: the first one, the
next one after as many without as are allowed, all of them where the options say so, and each one
after a step that stood in for another. So has the report of a solve over all its attempts. Whatever
the step was in the end, an iteration with a factorization that stood in for another has no
successor on record without a fresh Jacobian. -/
theorem jacobian_refreshes (hvariability : P.variability = .continuous) :
    (∀ tol descent s attempt t, runDamped P tol descent s = .ok attempt t →
      Refreshed P.options attempt.record.trace.toList) ∧
    (∀ tol s attempt t, runUndamped P tol s = .ok attempt t →
      Refreshed P.options attempt.record.trace.toList) ∧
    (∀ s report b', P.options.method ≠ .direct →
      (⟨P, s⟩ : Block α σ n).solve = (.ok report, b') →
      Refreshed P.options report.trace.toList) ∧
    (∀ tol descent tighten k f norm record s f' norm' record' t progress u,
      iterateDamped P tol descent tighten k f norm record s = .ok (.onward f' norm' record') t →
      t.work.factorization.isRecovery = true →
      iterateDamped P tol descent tighten (k + 1) f' norm' record' t = .ok progress u →
      progress.record = record' ∨
        ∃ it, progress.record = record'.push it ∧ it.freshJacobian = true) ∧
    ∀ tol k f record s f' record' t progress u,
      iterateUndamped P tol k f record s = .ok (.inr (f', record')) t →
      t.work.factorization.isRecovery = true →
      iterateUndamped P tol (k + 1) f' record' t = .ok progress u →
      strideRecord progress = record' ∨
        ∃ it, strideRecord progress = record'.push it ∧ it.freshJacobian = true := by
  refine ⟨fun tol descent s attempt t => runDamped_refreshed hvariability,
    fun tol s attempt t => runUndamped_refreshed hvariability,
    fun s report b' hmethod hsolve => ?_,
    fun tol descent tighten k f norm record s f' norm' record' t progress u h hrecovery hnext => ?_,
    fun tol k f record s f' record' t progress u h hrecovery hnext => ?_⟩
  · have hends := (⟨P, s⟩ : Block α σ n).solve_ends
    rw [hsolve] at hends
    exact hends.refreshed hvariability hmethod
  · exact iterateDamped_due hvariability (iterateDamped_recovery h hrecovery) hnext
  · exact iterateUndamped_due hvariability (iterateUndamped_recovery h hrecovery) hnext

end

/-- The positive root of `x² - 2` from zero, where the slope vanishes. A Jacobian is kept for two
iterations after the one it was evaluated for. -/
def chordBlock : Block Float Unit 1 where
  problem :=
    { label := "loop"
      options :=
        { Options.standard with
          jacobianSource := .analytic
          jacobianUpdate := .reuse
          maxJacobianAge := 2 }
      model :=
        { Model.ofFunction fun x : Vector Float 1 => .ok (x.map fun x => x * x - 2) with
          jacobian := some fun x s => .whole (.ok (.singleton (x.map fun x => x + x)), s) }
      auxiliaryCount := 0
      variability := .continuous }
  session := Session.fresh 1 ()

set_option maxRecDepth 100000 in
/-- The first step is one by the sign rule. The Jacobian is evaluated again right after it, and then
in every third iteration. -/
theorem jacobian_refreshes_chords :
    chordBlock.problem.variability = .continuous ∧
    ∃ report b', chordBlock.solve = (.ok report, b') ∧
      report.trace.toList.map (fun it => (it.stepKind.isRecovery, it.freshJacobian)) =
        [(true, true), (false, true), (false, false), (false, false), (false, true),
          (false, false), (false, false), (false, true)] ∧
      Refreshed chordBlock.problem.options report.trace.toList := by
  have hsolved : chordBlock.solve.1.toOption.any (fun report =>
      decide (report.trace.toList.map (fun it => (it.stepKind.isRecovery, it.freshJacobian)) =
        [(true, true), (false, true), (false, false), (false, false), (false, true),
          (false, false), (false, false), (false, true)])) = true := by decide +kernel
  have hmethod : chordBlock.problem.options.method ≠ .direct := by decide
  obtain ⟨report, hreport, htrace⟩ := exists_of_toOption_any hsolved
  have hsolve := eq_mk_of_fst hreport
  exact ⟨rfl, report, _, hsolve, of_decide_eq_true htrace,
    (jacobian_refreshes rfl).2.2.1 chordBlock.session report _ hmethod hsolve⟩

end AlgebraicLoop
