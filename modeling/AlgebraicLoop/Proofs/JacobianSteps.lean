import AlgebraicLoop.Proofs.Factorizations
import AlgebraicLoop.Proofs.Turns
import Mathlib.Logic.Relation

/-!
# What a solve does to its Jacobian

Between its ends a solve changes the Jacobian, its factorization and the marks on both in a few ways
only. `Step` lists them; everything a solve does is a sequence of such steps, also where it halts, and
so is the way to each of its positions. What holds of the Jacobian at a position of a solve is an
invariant of these steps.

* `evaluateJacobian_after`, `prepareJacobian_after`: what an evaluation and a preparation leave;
* `Aside`, `Step`, `Steps`: the steps;
* `Tracked`: actions that go by such steps, to their end or to where they halt.
-/

namespace AlgebraicLoop
set_option autoImplicit false

section
variable {α σ : Type} [Scalar α] {n : Nat} {P : Problem α σ n} {o s t u : Session α σ n}

/-! ## What leaves the Jacobian alone -/

/-- The Jacobian of a session with its factorization and marks, and what was found out about it. -/
def Session.stock (s : Session α σ n) : Findings α n × Mat α n n := (s.findings, s.work.jacobian)

/-- What neither a request nor a limited step touches is kept by every part of a solve that may not
change it. -/
theorem closed_still (P : Problem α σ n) (past : Bool) {γ : Type} {keep : Session α σ n → γ}
    (hrequest : ∀ s model calls notices bracket counters,
      keep { s with model, calls, notices, bracket, counters } = keep s)
    (hlimit : ∀ (s : Session α σ n) (box : Box α n), box.blank = s.work.box.blank →
      keep { s with work := { s.work with box } } = keep s) :
    Closed P past keep fun _ a => Follows (fun s t => keep t = keep s) a := by
  exact
    { value := fun _ _ => rfl
      seq := fun ha hf => Follows.bind (fun _ _ _ hst htu => htu.trans hst) ha hf
      read := fun _ hf s => hf s s
      residualNominals := fun _ hf s => hf s s
      update := fun hg s => hg.keeps s
      notice := fun _ s => hrequest s _ _ _ _ _
      residual := fun _ => follows_evaluate fun s _ _ => hrequest s _ _ _ _ _
      written := fun _ _ _ _ hstore s => hstore _ s
      jacobian := fun _ _ _ _ => follows_request fun s => hrequest s _ _ _ _ _
      directional := fun _ _ _ _ => follows_request fun s => hrequest s _ _ _ _ _
      auxiliary := fun _ => follows_updateAuxiliary fun s _ => hrequest s _ _ _ _ _
      limit := fun x step s => hlimit s _ (Box.blank_limitStep ..) }

/-- Every part of a solve that may change neither Jacobian nor marks keeps them. -/
theorem closed_kept (P : Problem α σ n) (past : Bool) {γ : Type} {keep : Session α σ n → γ}
    (part : Findings α n × Mat α n n → γ) (h : ∀ s, keep s = part s.stock) :
    Closed P past keep fun _ a => Follows (fun s t => keep t = keep s) a :=
  closed_still P past (fun _ _ _ _ _ _ => by rw [h, h]; rfl) fun _ _ _ => by rw [h, h]; rfl

theorem closed_stock (P : Problem α σ n) : Closed P true Session.stock
    fun _ a => Follows (fun s t : Session α σ n => t.stock = s.stock) a :=
  closed_kept P true id fun _ => rfl

/-- The second session follows on the first one with the same Jacobian, the same factorization and the
same findings. The mark that the Jacobian was evaluated at the point is kept only if the point is;
the mark that a fresh one must be evaluated stays. -/
structure Aside (s t : Session α σ n) : Prop where
  trail : Trail s t
  accepted : t.work.accepted = s.work.accepted
  jacobian : t.work.jacobian = s.work.jacobian
  factorization : t.work.factorization = s.work.factorization
  generation : t.work.generation = s.work.generation
  factoredGeneration : t.work.factoredGeneration = s.work.factoredGeneration
  current : t.work.flags.jacobianCurrent = s.work.flags.jacobianCurrent
  event : t.eventSinceJacobian = s.eventSinceJacobian
  premarked : t.work.premarkedSingular = s.work.premarkedSingular
  singular : t.work.flags.singular = s.work.flags.singular
  forced : s.work.flags.forceNewJacobian = true → t.work.flags.forceNewJacobian = true
  atPoint : t.work.jacobianAtPoint = true → s.work.jacobianAtPoint = true ∧ t.x = s.x

namespace Aside

theorem of_stock (htrail : Trail s t) (haccepted : t.work.accepted = s.work.accepted)
    (hx : t.x = s.x) (hstock : t.stock = s.stock) : Aside s t where
  trail := htrail
  accepted := haccepted
  jacobian := congrArg Prod.snd hstock
  factorization := congrArg (fun p => p.1.factorization) hstock
  generation := congrArg (fun p => p.1.generation) hstock
  factoredGeneration := congrArg (fun p => p.1.factoredGeneration) hstock
  current := congrArg (fun p => p.1.current) hstock
  event := congrArg (fun p => p.1.eventSince) hstock
  premarked := congrArg (fun p => p.1.premarked) hstock
  singular := congrArg (fun p => p.1.singular) hstock
  forced h := (congrArg (fun p => p.1.forced) hstock).trans h
  atPoint h := ⟨(congrArg (fun p => p.1.atPoint) hstock).symm.trans h, hx⟩

theorem refl (s : Session α σ n) : Aside s s := of_stock (Course.refl _ s) rfl rfl rfl

theorem trans (hst : Aside s t) (htu : Aside t u) : Aside s u where
  trail := hst.trail.trans htu.trail
  accepted := htu.accepted.trans hst.accepted
  jacobian := htu.jacobian.trans hst.jacobian
  factorization := htu.factorization.trans hst.factorization
  generation := htu.generation.trans hst.generation
  factoredGeneration := htu.factoredGeneration.trans hst.factoredGeneration
  current := htu.current.trans hst.current
  event := htu.event.trans hst.event
  premarked := htu.premarked.trans hst.premarked
  singular := htu.singular.trans hst.singular
  forced h := htu.forced (hst.forced h)
  atPoint h :=
    have ht := htu.atPoint h
    have hs := hst.atPoint ht.1
    ⟨hs.1, ht.2.trans hs.2⟩

/-- A change that makes no request and takes no sample. -/
theorem of_change (hcalls : t.calls = s.calls) (hbracket : t.bracket = s.bracket)
    (haccepted : t.work.accepted = s.work.accepted) (hx : t.x = s.x) (hstock : t.stock = s.stock) :
    Aside s t := of_stock (Course.of_eq hcalls hbracket rfl) haccepted hx hstock

theorem pressed (s : Session α σ n) : Aside s s.pressed :=
  ⟨Course.of_eq rfl rfl rfl, rfl, rfl, rfl, rfl, rfl, rfl, rfl, rfl, rfl, fun _ => rfl,
    fun h => ⟨h, rfl⟩⟩

/-- The point may move once the mark that the Jacobian was evaluated at it is taken off. -/
theorem moved (hcalls : t.calls = s.calls) (hbracket : t.bracket = s.bracket)
    (haccepted : t.work.accepted = s.work.accepted)
    (hfindings : t.findings = { s.findings with atPoint := false })
    (hjacobian : t.work.jacobian = s.work.jacobian) : Aside s t where
  trail := Course.of_eq hcalls hbracket rfl
  accepted := haccepted
  jacobian := hjacobian
  factorization := congrArg (fun m => m.factorization) hfindings
  generation := congrArg (fun m => m.generation) hfindings
  factoredGeneration := congrArg (fun m => m.factoredGeneration) hfindings
  current := congrArg (fun m => m.current) hfindings
  event := congrArg (fun m => m.eventSince) hfindings
  premarked := congrArg Findings.premarked hfindings
  singular := congrArg Findings.singular hfindings
  forced h := (congrArg (fun m => m.forced) hfindings).trans h
  atPoint h := absurd ((congrArg (fun m => m.atPoint) hfindings).symm.trans h) Bool.false_ne_true

end Aside

theorem aside_of_spot {β : Type} {a : Action α σ n β} (hcourse : Follows (Course (Session.spot P)) a)
    (hstock : Follows (fun s t => t.stock = s.stock) a) : Follows Aside a := by
  intro s
  have aside : ∀ t, Course (Session.spot P) s t → t.stock = s.stock → Aside s t := fun t hst =>
    .of_stock hst.trail (congrArg (fun p => p.accepted) hst.keeps) (congrArg Spot.x hst.keeps)
  exact (hcourse s).mono (fun _ t ht hst => aside t hst ((hstock s).ok ht))
    fun _ t ht hst => aside t hst ((hstock s).error ht)

theorem aside_of_footing {β : Type} {a : Action α σ n β}
    (hcourse : Follows (Course (Session.footing P)) a)
    (hstock : Follows (fun s t => t.stock = s.stock) a) : Follows Aside a :=
  aside_of_spot (P := P) (fun s => (hcourse s).mono
    (fun _ _ _ h => h.coarser (congrArg Footing.toSpot))
    fun _ _ _ h => h.coarser (congrArg Footing.toSpot)) hstock

/-- Every part of a solve that may change neither the point nor the Jacobian and its marks is an
aside. -/
theorem closed_aside (P : Problem α σ n) :
    Closed P true (Session.hold P) fun _ a => Follows Aside a :=
  have hkept := closed_stock P
  { value := fun _ s => Aside.refl s
    seq := fun ha hf => Follows.bind (fun _ _ _ hst htu => hst.trans htu) ha hf
    read := fun _ hf s => hf s s
    residualNominals := fun _ hf s => hf s s
    update := fun hg s =>
      have hkeeps := hg.keeps s
      .of_change (congrArg Ledger.calls (hg.silent s)) (congrArg Ledger.bracket (hg.silent s))
        (congrArg (fun p => p.1.1.accepted) hkeeps) (congrArg (fun p => p.1.1.x) hkeeps)
        (congrArg (fun p => (p.1.2, p.2)) hkeeps)
    notice := fun _ _ => .of_change rfl rfl rfl rfl rfl
    residual := fun x => aside_of_footing (course_evaluate P x) (hkept.residual x)
    written := fun _ _ _ _ hstore s => hstore _ s
    jacobian := fun jacobian hj x A =>
      aside_of_footing (course_request P _ _ _) (hkept.jacobian jacobian hj x A)
    directional := fun derivative hd x direction =>
      aside_of_footing (course_request P _ _ _) (hkept.directional derivative hd x direction)
    auxiliary := fun x => aside_of_footing (course_updateAuxiliary P x) (hkept.auxiliary x)
    limit := fun x step => aside_of_footing (course_limitByBox P x step) (hkept.limit x step) }

theorem aside_evaluate (P : Problem α σ n) (x : Vector α n) : Follows Aside (evaluate P x) :=
  (closed_aside P).residual x

theorem aside_searchDirection (P : Problem α σ n) (descent : Bool) (x f step : Vector α n)
    (kind : StepKind) : Follows Aside (searchDirection P descent x f step kind) :=
  have hgrip : Closed P true (Session.grip P) fun _ a => Follows Aside a :=
    (closed_aside P).finer (fun p => ((p.1.1.toSpot, p.1.2), p.2)) fun _ => rfl
  hgrip.searchDirection descent x f step kind

theorem aside_tightenedNorm (P : Problem α σ n) (tighten : Bool) (iteration : Nat) (fresh : Bool)
    (x f : Vector α n) (norm : α) :
    Follows Aside (tightenedNorm P tighten iteration fresh x f norm) :=
  (closed_aside P).tightenedNorm tighten iteration fresh x f norm

theorem aside_lineSearch (P : Problem α σ n) (x f step : Vector α n) (length stepTolerance : α) :
    Follows Aside (lineSearch P x f step length stepTolerance) :=
  (closed_aside P).lineSearch (fun s => Aside.refl s) x f step length stepTolerance

/-- What follows a step that stands in for another raises the mark that a fresh Jacobian must be
evaluated. -/
theorem aside_afterRecoveryStep (P : Problem α σ n) : Follows Aside (afterRecoveryStep P) :=
  (closed_aside P).afterRecoveryStep_of (fun _ => .of_change rfl rfl rfl rfl rfl) Aside.pressed
    fun _ => .of_change rfl rfl rfl rfl rfl

/-! ## Evaluating the Jacobian -/

namespace Marks

/-- The marks after an evaluation of the Jacobian at the current point. -/
def renewed (m : Marks α n) : Marks α n :=
  { m with
    generation := m.generation + 1
    current := true
    atPoint := true
    forced := false
    eventSince := false }

/-- The marks after an evaluation of the Jacobian that failed. -/
def rejected (m : Marks α n) : Marks α n := { m with current := false, atPoint := false }

end Marks

/-- The session after a Jacobian was accepted. -/
def Session.renewed (s : Session α σ n) : Session α σ n :=
  { s with
    counters.jacobianEvaluations := s.counters.jacobianEvaluations + 1
    eventSinceJacobian := false
    work :=
      { s.work.jacobianChanged with
        jacobianAtPoint := true
        jacobianAge := 0
        flags.forceNewJacobian := false } }

/-- The session after a Jacobian was rejected. -/
def Session.disowned (s : Session α σ n) : Session α σ n :=
  { s with work := { s.work with flags.jacobianCurrent := false, jacobianAtPoint := false } }

theorem evaluateJacobian_undefined {x f : Vector α n} {mishap : Mishap} {exact : Bool}
    (h : sourceJacobian P x f s = .ok (.error mishap, exact) t) :
    evaluateJacobian P x f s = .ok (.error mishap) t.disowned := by
  unfold evaluateJacobian
  rw [bind_ok h]
  rfl

theorem evaluateJacobian_illegal {x f : Vector α n} {A : Mat α n n} {exact : Bool}
    {entry : Fin n × Fin n} (h : sourceJacobian P x f s = .ok (.ok A, exact) t)
    (hentry : lastIllegalEntry? A = some entry) :
    evaluateJacobian P x f s = .ok (.error (.illegalEntry entry.1 entry.2)) t.disowned := by
  unfold evaluateJacobian
  rw [bind_ok h]
  dsimp only
  rw [hentry]
  rfl

theorem evaluateJacobian_legal {x f : Vector α n} {A : Mat α n n} {exact : Bool}
    (h : sourceJacobian P x f s = .ok (.ok A, exact) t) (hlegal : lastIllegalEntry? A = none) :
    evaluateJacobian P x f s =
      ((if exact && P.options.checkJacobian then compareWithDifferences P x f else pure ()) >>=
        fun _ => pure (.ok ())) t.renewed := by
  unfold evaluateJacobian
  rw [bind_ok h]
  dsimp only
  rw [hlegal]
  split
  · rfl
  · rfl

/-- The property of putting a Jacobian together that it ends with the result stored. -/
def Stores (a : Action α σ n (Except Mishap (Mat α n n))) (s : Session α σ n) : Prop :=
  After a s (fun answer t => ∀ A, answer = .ok A → t.work.jacobian = A) fun _ _ => True

omit [Scalar α] in
theorem fillColumns_stores {column : Fin n → Action α σ n (Except Mishap (Vector α n))}
    (hcolumn : ∀ j, Follows (fun s t => t.work.jacobian = s.work.jacobian) (column j))
    (l : List (Fin n)) (A : Mat α n n) (s : Session α σ n) (hs : s.work.jacobian = A) :
    Stores (fillColumns column storeJacobian l A) s := by
  induction l generalizing A s with
  | nil =>
    intro B hB
    cases hB
    exact hs
  | cons j rest ih =>
    unfold Stores fillColumns
    rw [after_bind]
    refine (hcolumn j s).mono (fun answer t _ _ => ?_) fun _ _ _ _ => trivial
    cases answer with
    | error mishap => exact nofun
    | ok c => exact ih _ { t with work := { t.work with jacobian := A.setColumn j c } } rfl

theorem compressedDifferences_stores (P : Problem α σ n) (scale : Vector α n)
    (pattern : Pattern n n) (x f : Vector α n) (groups : List (List (Fin n))) (A : Mat α n n)
    (s : Session α σ n) (hs : s.work.jacobian = A) :
    Stores (compressedDifferences P scale pattern x f storeJacobian groups A) s := by
  induction groups generalizing A s with
  | nil =>
    intro B hB
    cases hB
    exact hs
  | cons group rest ih =>
    unfold Stores compressedDifferences
    rw [after_congr (get_bind_apply _ _), after_bind]
    refine (aside_evaluate P _ s).mono (fun answer t _ _ => ?_) fun _ _ _ _ => trivial
    cases answer with
    | error mishap => exact nofun
    | ok g => exact ih _ { t with work := { t.work with jacobian := _ } } rfl

theorem differences_stores (P : Problem α σ n) (scale : Vector α n) (twoSided : Fin n → Bool)
    (x f : Vector α n) (s : Session α σ n) :
    Stores (differences P scale twoSided x f storeJacobian s.work.jacobian) s := by
  have hkept := closed_stock P
  have hcolumn : ∀ {a : Action α σ n (Except Mishap (Vector α n))},
      Follows (fun s t => t.stock = s.stock) a →
        Follows (fun s t => t.work.jacobian = s.work.jacobian) a := fun ha s =>
    (ha s).mono (fun _ _ _ h => congrArg Prod.snd h) fun _ _ _ h => congrArg Prod.snd h
  refine fillColumns_stores (fun j => ?_) _ _ s rfl
  split
  · exact hcolumn (hkept.twoSidedColumn scale x f j)
  · exact hcolumn (hkept.oneSidedColumn scale x f j)

theorem sourceJacobian_stores (P : Problem α σ n) (x f : Vector α n) (s : Session α σ n) :
    After (sourceJacobian P x f) s (fun (answer, _) t => ∀ A, answer = .ok A → t.work.jacobian = A)
      fun _ _ => True := by
  have paired : ∀ {a : Action α σ n (Except Mishap (Mat α n n))} {exact : Bool}, Stores a s →
      After (a >>= fun status => pure (status, exact)) s
        (fun (answer, _) t => ∀ A, answer = .ok A → t.work.jacobian = A) fun _ _ => True :=
    fun ha => ha.bind fun _ _ h => h
  have hkept := closed_stock P
  unfold sourceJacobian
  rw [after_congr (get_bind_apply _ _)]
  dsimp only
  split
  · next exact hexact =>
    refine paired ?_
    unfold exactJacobian? at hexact
    split at hexact
    · obtain ⟨jacobian, hj, rfl⟩ := Option.map_eq_some_iff.1 hexact
      unfold Stores
      rw [after_congr (analyticJacobian_apply jacobian x s)]
      cases hanswer : ((jacobian x s.model).answer s.work.jacobian).1 with
      | error failure =>
        cases failure with
        | fatal reason => trivial
        | recoverable reason => exact nofun
      | ok B =>
        rintro A ⟨⟩
        exact Writing.left_of_answer hanswer
    · obtain ⟨derivative, hd, rfl⟩ := Option.map_eq_some_iff.1 hexact
      refine fillColumns_stores (fun j u => ?_) _ _ s rfl
      exact (hkept.directional derivative hd x _ u).mono (fun _ _ _ h => congrArg Prod.snd h)
        fun _ _ _ h => congrArg Prod.snd h
  · split
    · next pattern _ =>
      refine paired ?_
      unfold Stores groupedJacobian
      rw [after_congr (get_bind_apply _ _)]
      refine After.bind (compressedDifferences_stores P _ pattern x f _ _ s rfl)
        fun answer t ht => ?_
      cases answer with
      | ok A => exact ht
      | error mishap =>
        dsimp only
        rw [after_congr (notify_bind_apply _ _ _), after_congr (get_bind_apply _ _)]
        exact differences_stores P _ _ x f _
    · exact paired (differences_stores P _ _ x f s)

/-- A comparison with difference quotients leaves the Jacobian and the marks. -/
theorem compareWithDifferences_stock (hcheck : P.options.checkJacobian = true) (x f : Vector α n) :
    Follows (fun s t => t.stock = s.stock ∧ Trail s t) (compareWithDifferences P x f) := by
  have hgrip : Closed P true (Session.grip P)
      fun _ a => Follows (fun s t : Session α σ n => t.stock = s.stock) a :=
    (closed_stock P).finer (fun p => (p.1.2, p.2)) fun _ => rfl
  have hgripped := (closed_course P true (@id (Footing α n)) fun _ => rfl).ground.grip
  have hcourse : Follows Trail (compareWithDifferences P x f) :=
    (hgripped.compareWithDifferences (hgripped.compareEntry hcheck) x f).trail
  exact fun s => (hgrip.compareWithDifferences (hgrip.compareEntry hcheck) x f s).mono
    (fun _ _ hrun hstock => ⟨hstock, hcourse.ok hrun⟩)
    fun _ _ hrun hstock => ⟨hstock, hcourse.error hrun⟩

/-- The Jacobian of the second session was computed in the first one at `x`, where the residual was
found to be `f`. -/
def Sourced (P : Problem α σ n) (x f : Vector α n) (s t : Session α σ n) : Prop :=
  ∃ exact w, sourceJacobian P x f s = .ok (.ok t.work.jacobian, exact) w ∧ Trail w t

/-- An evaluation that fails takes the marks off the Jacobian; one that a fatal answer cuts short
leaves the marks as they were, or renewed where a comparison was cut short. -/
theorem evaluateJacobian_after (P : Problem α σ n) (x f : Vector α n) (s : Session α σ n) :
    After (evaluateJacobian P x f) s
      (fun answer t => match answer with
        | .ok () => t.marks = s.marks.renewed ∧ Sourced P x f s t
        | .error _ => t.marks = s.marks.rejected)
      fun _ t => t.marks = s.marks ∨ t.marks = s.marks.renewed ∧ Sourced P x f s t := by
  have hmarks : Closed P true Session.marks
      fun _ a => Follows (fun s t : Session α σ n => t.marks = s.marks) a :=
    closed_kept P true (fun p => p.1.toMarks) fun _ => rfl
  have hground : Closed P true (Session.ground P)
      fun _ a => Follows (fun s t : Session α σ n => t.marks = s.marks) a :=
    hmarks.finer (fun p => p.2.toMarks) fun _ => rfl
  have hsource := (hground.sourceJacobian hground.storeJacobian x f s).mono (fun answer t hrun ht =>
    (⟨ht, hrun⟩ : t.marks = s.marks ∧ sourceJacobian P x f s = .ok answer t)) fun _ t _ ht =>
    (Or.inl ht : t.marks = s.marks ∨ t.marks = s.marks.renewed ∧ Sourced P x f s t)
  refine hsource.bind fun (status, exact) t ⟨ht, hrun⟩ => ?_
  have hrejected : t.disowned.marks = s.marks.rejected := congrArg Marks.rejected ht
  cases status with
  | error mishap => exact hrejected
  | ok A =>
    have hA : t.work.jacobian = A := (sourceJacobian_stores P x f s).ok hrun A rfl
    have haccepted : ∀ u : Session α σ n,
        u.stock = ({ t.findings with toMarks := t.marks.renewed }, t.work.jacobian) →
        Trail t u → u.marks = s.marks.renewed ∧ Sourced P x f s u := by
      intro u hu htu
      have hJ : u.work.jacobian = A := (congrArg Prod.snd hu).trans hA
      have hmarks : u.marks = t.marks.renewed := congrArg (fun p => p.1.toMarks) hu
      refine ⟨hmarks.trans (congrArg Marks.renewed ht), exact, t, ?_, htu⟩
      rw [hJ]
      exact hrun
    have hrenewed : Trail t t.renewed := Course.of_eq rfl rfl rfl
    dsimp only
    split
    · exact hrejected
    · unfold acceptJacobian
      rw [after_congr (modify_bind_apply _ _ _)]
      split
      · next hcheck =>
        have hcompare := (compareWithDifferences_stock (Bool.and_eq_true_iff.1 hcheck).2 x f
          t.renewed).mono
            (fun _ v _ (hv : _ ∧ _) => haccepted v hv.1 (hrenewed.trans hv.2))
            fun _ v _ (hv : _ ∧ _) => haccepted v hv.1 (hrenewed.trans hv.2)
        exact (hcompare.mono (fun _ _ _ h => h) fun _ _ _ h => .inr h).bind fun _ v hv => hv
      · exact haccepted t.renewed rfl hrenewed

/-- An evaluation of the Jacobian finds out nothing about it, however it ends. -/
theorem evaluateJacobian_findings (P : Problem α σ n) (x f : Vector α n) :
    Follows (fun s t => t.work.premarkedSingular = s.work.premarkedSingular ∧
      t.work.flags.singular = s.work.flags.singular) (evaluateJacobian P x f) := by
  let keep : Session α σ n → Bool × Bool := fun s =>
    (s.work.premarkedSingular, s.work.flags.singular)
  have hC : Closed P true keep fun _ a => Follows (fun s t => keep t = keep s) a :=
    closed_kept P true (fun p => (p.1.premarked, p.1.singular)) fun _ => rfl
  have hgrip : Closed P true (Session.grip P) fun _ a => Follows (fun s t => keep t = keep s) a :=
    hC.finer (fun p => (p.1.2.premarked, p.1.2.singular)) fun _ => rfl
  have hkeep := hC.evaluateJacobian_of (fun _ _ => rfl) (fun _ => rfl) (fun _ => rfl)
    hgrip.compareEntry x f
  exact fun s => (hkeep s).mono (fun _ _ _ h => Prod.mk.inj h) fun _ _ _ h => Prod.mk.inj h

/-! ## Factoring -/

/-- The factorization was made from the matrix `J`: from `J` itself, or from the regularized normal
matrix of `J` with some scales. A single unknown is not factored. -/
def Factorization.Of (J : Mat α n n) : Factorization α n → Prop
  | .none => False
  | .lu factors => LU.factor J = .ok factors
  | .regularized factors =>
    ∃ w : Workspace α n, w.jacobian = J ∧ LU.factor (regularizedNormal w) = .ok factors
  | .minimumNorm factors => LeastNorm.factor J = .ok factors
  | .scalar => n = 1

/-- The second session differs from the first one in its factorization, which is one of the Jacobian
if it is usable, and none if not. -/
structure Refactored (s t : Session α σ n) (usable : Bool) : Prop where
  jacobian : t.work.jacobian = s.work.jacobian
  marks : t.marks = { s.marks with factorization := t.work.factorization }
  present : usable = true → t.work.factorization.Of t.work.jacobian
  absent : usable = false → t.work.factorization = .none

theorem Refactored.of_factors {F : Factorization α n} (hfactors : t.work.factorization = F)
    (hjacobian : t.work.jacobian = s.work.jacobian)
    (hmarks : t.marks = { s.marks with factorization := F })
    (hF : F.isPresent = true → F.Of s.work.jacobian) : Refactored s t F.isPresent := by
  subst hfactors
  refine ⟨hjacobian, hmarks, fun hpresent => ?_, fun habsent => ?_⟩
  · rw [hjacobian]
    exact hF hpresent
  · cases hfactorization : t.work.factorization with
    | none => rfl
    | _ =>
      rw [hfactorization] at habsent
      cases habsent

theorem leastNormFactors_of {J : Mat α n n} (h : (leastNormFactors J).isPresent = true) :
    (leastNormFactors J).Of J := by
  obtain ⟨f, hf, e⟩ | ⟨e, _⟩ := leastNormFactors_cases J
  · rw [e]
    exact hf
  · rw [e] at h
    cases h

theorem standIn_of (mode : RecoveryMode) (w : Workspace α n)
    (h : (standIn mode w).factorization.isPresent = true) :
    (standIn mode w).factorization.Of w.jacobian := by
  by_cases hn : n = 1
  · rw [standIn_alone hn]
    exact hn
  · obtain ⟨lu, hlu, e⟩ | e := standIn_cases hn mode w
    · rw [e]
      exact ⟨w, rfl, hlu⟩
    · rw [e] at h ⊢
      exact leastNormFactors_of h

theorem directFactors_of {J : Mat α n n} (h : (directFactors J).isPresent = true) :
    (directFactors J).Of J := by
  cases hfactor : LU.factor J with
  | ok lu =>
    unfold directFactors
    rw [hfactor]
    exact hfactor
  | error _ =>
    rw [directFactors_of_error hfactor] at h ⊢
    exact leastNormFactors_of h

/-- The session whose Jacobian is about to be factored. -/
def Session.dated (s : Session α σ n) : Session α σ n :=
  { s with work := { s.work with factoredGeneration := some s.work.generation } }

theorem factorize_after (s : Session α σ n) :
    After factorize s (fun usable t => Refactored s.dated t usable) fun _ _ => False := by
  unfold After
  obtain ⟨_, lu, hfactor, hrun⟩ | ⟨_, notices, hrun⟩ := factorize_cases s
  · rw [hrun]
    exact .of_factors (F := .lu lu) rfl rfl rfl fun _ => hfactor
  · rw [hrun]
    exact .of_factors rfl rfl rfl (standIn_of _ _)

theorem factorDirect_after (s : Session α σ n) :
    After factorDirect s (fun usable t => Refactored s.dated t usable) fun _ _ => False := by
  obtain ⟨_, _, hrun⟩ := factorDirect_run s
  unfold After
  rw [hrun]
  exact .of_factors rfl rfl rfl directFactors_of

/-! ## Preparing the Jacobian -/

/-- Nothing needs to be done about the Jacobian. -/
structure Session.Ready (s : Session α σ n) : Prop where
  current : s.work.flags.jacobianCurrent = true
  atPoint : s.work.jacobianAtPoint = true
  unforced : s.work.flags.forceNewJacobian = false

/-- The session with a Jacobian that is one iteration older. -/
def Session.aged (s : Session α σ n) : Session α σ n :=
  { s with work := { s.work with jacobianAge := s.work.jacobianAge + 1 } }

/-- The session with its Jacobian replaced by a secant update. -/
def Session.updated (s : Session α σ n) (J : Mat α n n) : Session α σ n :=
  { s with
    work :=
      { { s.work with jacobian := J }.jacobianChanged with jacobianAge := s.work.jacobianAge + 1 } }

/-- The Jacobian was not evaluated at the point, but may be used there as it is or updated: before
the first step only if it may be used again after an earlier solve. -/
structure Session.Reusable (P : Problem α σ n) (iteration : Nat) (s : Session α σ n) : Prop where
  current : s.work.flags.jacobianCurrent = true
  elsewhere : s.work.jacobianAtPoint = false
  reusable : iteration = 1 → P.variability.reusable s.eventSinceJacobian = true

/-- When a plan for the Jacobian is made. -/
def JacobianPlan.Due (P : Problem α σ n) (s : Session α σ n) (iteration : Nat) (f : Vector α n) :
    JacobianPlan α n → Prop
  | .alreadyFresh => s.Ready
  | .evaluate => ¬ s.Ready
  | .keep => s.Reusable P iteration
  | .update J =>
    s.Reusable P iteration ∧ secantUpdate? P.options.jacobianUpdate s.work f = some J

theorem planJacobian_due (P : Problem α σ n) (s : Session α σ n) (iteration : Nat)
    (f : Vector α n) :
    (planJacobian P.options P.variability s.eventSinceJacobian s.work iteration f).Due P s iteration
      f := by
  have hunready : s.work.jacobianAtPoint ≠ true → ¬ s.Ready := fun h hs => h hs.atPoint
  unfold planJacobian
  split
  · next hforced =>
    intro hready
    obtain h | h := hforced
    · rw [hready.unforced] at h
      cases h
    · rw [hready.current] at h
      cases h
  · next hforced =>
    obtain ⟨hunforced, hcurrent⟩ := not_or.1 hforced
    have hunforced : s.work.flags.forceNewJacobian = false := by simpa using hunforced
    have hcurrent : s.work.flags.jacobianCurrent = true := by simpa using hcurrent
    split
    · next hpoint => exact ⟨hcurrent, hpoint, hunforced⟩
    · next hpoint =>
      have helsewhere : s.work.jacobianAtPoint = false := by simpa using hpoint
      split
      · split
        · next hreusable => exact ⟨hcurrent, helsewhere, fun _ => hreusable⟩
        · exact hunready hpoint
      · next hfirst =>
        have hreusable : s.Reusable P iteration :=
          ⟨hcurrent, helsewhere, fun h => absurd h hfirst⟩
        split
        · exact hreusable
        · split
          · exact hunready hpoint
          · split
            · exact hunready hpoint
            · split
              · exact hreusable
              · split
                · next hupdate => exact ⟨hreusable, hupdate⟩
                · exact hunready hpoint

/-- The session after the Jacobian was kept or updated for one more iteration. -/
def Reused (P : Problem α σ n) (f : Vector α n) (s t : Session α σ n) : Prop :=
  t = s.aged ∨ ∃ J, secantUpdate? P.options.jacobianUpdate s.work f = some J ∧ t = s.updated J

theorem prepareJacobian_after (P : Problem α σ n) (iteration : Nat) (x f : Vector α n)
    (s : Session α σ n) :
    After (prepareJacobian P iteration x f) s
      (fun answer t => match answer with
        | .ok true => s.Ready ∧ t = s ∨ ¬ s.Ready ∧ evaluateJacobian P x f s = .ok (.ok ()) t
        | .ok false => s.Reusable P iteration ∧ Reused P f s t
        | .error mishap => ¬ s.Ready ∧ evaluateJacobian P x f s = .ok (.error mishap) t)
      fun halt t => ¬ s.Ready ∧ evaluateJacobian P x f s = .error halt t := by
  have hplan := planJacobian_due P s iteration f
  unfold prepareJacobian
  change After (match planJacobian P.options P.variability s.eventSinceJacobian s.work iteration f
    with | .alreadyFresh => _ | .evaluate => _ | .keep => _ | .update J => _) s _ _
  cases hcase : planJacobian P.options P.variability s.eventSinceJacobian s.work iteration f with
  | alreadyFresh =>
    rw [hcase] at hplan
    exact .inl ⟨hplan, rfl⟩
  | evaluate =>
    rw [hcase] at hplan
    rw [after_bind]
    refine .intro (fun answer t hrun => ?_) fun _ _ hrun => ⟨hplan, hrun⟩
    cases answer with
    | error mishap => exact ⟨hplan, hrun⟩
    | ok _ => exact .inr ⟨hplan, hrun⟩
  | keep =>
    rw [hcase] at hplan
    exact ⟨hplan, .inl rfl⟩
  | update J =>
    rw [hcase] at hplan
    exact ⟨hplan.1, .inr ⟨J, hplan.2, rfl⟩⟩

/-- A Jacobian that was prepared can be used. -/
theorem prepareJacobian_current {k : Nat} {x f : Vector α n} {fresh : Bool}
    (h : prepareJacobian P k x f s = .ok (.ok fresh) t) : t.work.flags.jacobianCurrent = true := by
  have hrun := (prepareJacobian_after P k x f s).ok h
  cases fresh with
  | true =>
    obtain ⟨hready, rfl⟩ | ⟨_, hrun⟩ := hrun
    · exact hready.current
    · exact congrArg Marks.current ((evaluateJacobian_after P x f s).ok hrun).1
  | false =>
    obtain ⟨hreusable, rfl | ⟨J, _, rfl⟩⟩ := hrun
    · exact hreusable.current
    · rfl

/-! ## Steps -/

/-- The scaled Jacobian is too ill-conditioned to be used as it is, with scales some of which had to be
clamped. One that took the place of a singular Jacobian is not doubted. -/
structure Session.Doubtful (P : Problem α σ n) (s : Session α σ n) : Prop where
  poorlyScaled : s.work.flags.poorlyScaled = true
  regular : s.work.flags.singular = false
  current : s.work.flags.jacobianCurrent = true
  exceeds : scaledCondition s.work.jacobian s.work.residualScale s.work.variableScale >
    P.options.conditionLimit

/-- The session with its Jacobian marked as one to be treated as singular. -/
def Session.marked (s : Session α σ n) : Session α σ n :=
  { s with work := { s.work with premarkedSingular := true, factoredGeneration := none } }

/-- What a solve can do to its Jacobian in one step. A fresh evaluation is made at the current point,
whose residual was found since `o`. -/
inductive Step (P : Problem α σ n) (o : Session α σ n) : Session α σ n → Session α σ n → Prop
  | aside {s t : Session α σ n} : Aside s t → Step P o s t
  | evaluated {s t : Session α σ n} {f : Vector α n} :
      Evaluated o s s.x f → evaluateJacobian P s.x f s = .ok (.ok ()) t → Step P o s t
  | rejected {s t : Session α σ n} {x f : Vector α n} {mishap : Mishap} :
      evaluateJacobian P x f s = .ok (.error mishap) t → Step P o s t
  | updated {s : Session α σ n} {f : Vector α n} {J : Mat α n n} :
      s.work.flags.jacobianCurrent = true → s.work.jacobianAtPoint = false →
      secantUpdate? P.options.jacobianUpdate s.work f = some J → Step P o s (s.updated J)
  | factored {s t : Session α σ n} {usable : Bool} : factorize s = .ok usable t → Step P o s t
  | factoredDirectly {s t : Session α σ n} {usable : Bool} :
      P.options.method = .direct → factorDirect s = .ok usable t → Step P o s t
  /-- The factorization is given up since an update of the residual scales, now at its end, found the
  scaled Jacobian ill-conditioned. -/
  | unfactored {s q : Session α σ n} :
      P.options.method = .damped → s.Doubtful P → updateResidualScales P q = .ok () s.marked →
      Step P o s s.marked

/-- Any number of steps. -/
abbrev Steps (P : Problem α σ n) (o : Session α σ n) :
    Session α σ n → Session α σ n → Prop := Relation.ReflTransGen (Step P o)

/-- A fatal answer cuts an evaluation of the Jacobian short. Methods without line search evaluate a
Jacobian only where that is needed. -/
def Torn (P : Problem α σ n) (o s t : Session α σ n) : Prop :=
  (P.options.method ≠ .damped → ¬ s.Ready) ∧
    ∃ f halt, Evaluated o s s.x f ∧ evaluateJacobian P s.x f s = .error halt t

/-- Where a solve can halt: between two steps, or within an evaluation of the Jacobian. -/
def Halted (P : Problem α σ n) (o s t : Session α σ n) : Prop :=
  ∃ v, Steps P o s v ∧ (t = v ∨ Torn P o v t)

theorem course_evaluateJacobian (P : Problem α σ n) (x f : Vector α n) :
    Follows (Course (Session.footing P)) (evaluateJacobian P x f) :=
  (closed_course P true id fun _ => rfl).evaluateJacobian x f

theorem course_factorize (P : Problem α σ n) :
    Follows (Course (Session.footing P)) (factorize : Action α σ n Bool) :=
  (closed_course P true id fun _ => rfl).factorize

theorem course_factorDirect (P : Problem α σ n) :
    Follows (Course (Session.footing P)) (factorDirect : Action α σ n Bool) :=
  (closed_course P true id fun _ => rfl).factorDirect

theorem Course.upheld {s t : Session α σ n} (h : Course (Session.footing P) s t) :
    Course (fun s => s.work.accepted) s t :=
  h.coarser (congrArg fun p : Footing α n => p.accepted)

/-- A step follows on the session before it, with the same accepted outer step. -/
theorem Step.course (h : Step P o s t) : Course (fun s => s.work.accepted) s t := by
  cases h with
  | aside h => exact ⟨h.trail.calls, h.trail.samples, h.trail.sound, h.accepted⟩
  | evaluated _ h => exact ((course_evaluateJacobian P _ _).ok h).upheld
  | rejected h => exact ((course_evaluateJacobian P _ _).ok h).upheld
  | updated _ _ _ => exact Course.of_eq rfl rfl rfl
  | factored h => exact ((course_factorize P).ok h).upheld
  | factoredDirectly _ h => exact ((course_factorDirect P).ok h).upheld
  | unfactored _ _ _ => exact Course.of_eq rfl rfl rfl

theorem Steps.course (h : Steps P o s t) : Course (fun s => s.work.accepted) s t := by
  induction h with
  | refl => exact Course.refl _ _
  | tail _ hstep ih => exact ih.trans hstep.course

theorem Steps.trail (h : Steps P o s t) : Trail s t := h.course.trail

theorem Steps.of_aside (h : Aside s t) : Steps P o s t := .single (.aside h)

/-- Steps since a later session are steps since an earlier one. -/
theorem Steps.since {r : Session α σ n} (h : Steps P s s t) (hrs : Trail r s) : Steps P r s t := by
  induction h with
  | refl => exact .refl
  | tail hsteps hstep ih =>
    refine ih.tail ?_
    cases hstep with
    | aside h => exact .aside h
    | evaluated hf h => exact .evaluated (hf.earlier hrs.calls (Steps.trail hsteps).calls) h
    | rejected h => exact .rejected h
    | updated hcurrent hpoint h => exact .updated hcurrent hpoint h
    | factored h => exact .factored h
    | factoredDirectly hmethod h => exact .factoredDirectly hmethod h
    | unfactored hmethod hdoubtful h => exact .unfactored hmethod hdoubtful h

theorem Torn.course (h : Torn P o s t) : Course (fun s => s.work.accepted) s t := by
  obtain ⟨_, f, halt, _, h⟩ := h
  exact ((course_evaluateJacobian P s.x f).error h).upheld

theorem Halted.course (h : Halted P o s t) : Course (fun s => s.work.accepted) s t := by
  obtain ⟨v, hsteps, rfl | htorn⟩ := h
  · exact hsteps.course
  · exact hsteps.course.trans htorn.course

theorem Steps.halted (h : Steps P o s t) : Halted P o s t := ⟨t, h, .inl rfl⟩

theorem Halted.since {r : Session α σ n} (h : Halted P s s t) (hrs : Trail r s) : Halted P r s t := by
  obtain ⟨v, hsv, rfl | ⟨hready, f, halt, hf, h⟩⟩ := h
  · exact ⟨t, hsv.since hrs, .inl rfl⟩
  · exact ⟨v, hsv.since hrs, .inr ⟨hready, f, halt, hf.earlier hrs.calls hsv.trail.calls, h⟩⟩

theorem Halted.of_steps (hst : Steps P o s t) (h : Halted P o t u) : Halted P o s u := by
  obtain ⟨v, htv, hv⟩ := h
  exact ⟨v, hst.trans htv, hv⟩

/-! ## Actions that are made of steps -/

/-- The action, started in `s`, goes by steps, also where it halts. -/
def Treads (P : Problem α σ n) (o : Session α σ n) {β : Type} (a : Action α σ n β)
    (s : Session α σ n) : Prop :=
  After a s (fun _ t => Steps P o s t) fun _ t => Halted P o s t

/-- The action goes by steps, wherever it starts. -/
def Tracked (P : Problem α σ n) (o : Session α σ n) {β : Type} (a : Action α σ n β) : Prop :=
  ∀ s, Trail o s → Treads P o a s

theorem Treads.bind {β γ : Type} {a : Action α σ n β} {f : β → Action α σ n γ}
    (ha : Treads P o a s) (hf : ∀ v t, a s = .ok v t → Steps P o s t → Treads P o (f v) t) :
    Treads P o (a >>= f) s := by
  unfold Treads
  rw [after_bind]
  refine ha.mono (fun v t hrun hst => ?_) fun _ _ _ h => h
  exact (hf v t hrun hst).mono (fun _ _ _ htu => hst.trans htu) fun _ _ _ htu => htu.of_steps hst

theorem Treads.of_aside {β : Type} {a : Action α σ n β} (h : Follows Aside a)
    (s : Session α σ n) : Treads P o a s :=
  (h s).mono (fun _ _ _ hst => .of_aside hst) fun _ _ _ hst => (Steps.of_aside hst).halted

namespace Tracked
variable {β γ : Type} {a : Action α σ n β}

theorem bind (ha : Tracked P o a) {f : β → Action α σ n γ} (hf : ∀ v, Tracked P o (f v)) :
    Tracked P o (a >>= f) :=
  fun s hs => (ha s hs).bind fun v t _ hst => hf v t (hs.trans hst.trail)

theorem value (v : β) : Tracked P o (pure v : Action α σ n β) := fun _ _ => .refl

theorem read {f : Session α σ n → Action α σ n β} (hf : ∀ s, Tracked P o (f s)) :
    Tracked P o (get >>= f) := fun s hs => hf s s hs

theorem of_aside (h : Follows Aside a) : Tracked P o a := fun s _ => .of_aside h s

theorem change {g : Session α σ n → Session α σ n} (h : ∀ s, Aside s (g s)) :
    Tracked P o (modify g : Action α σ n Unit) := of_aside fun s => h s

theorem work {g : Workspace α n → Workspace α n}
    (h : ∀ s : Session α σ n, Aside s { s with work := g s.work }) :
    Tracked P o (modifyWork g : Action α σ n Unit) := change h

theorem notify (notice : Notice α) : Tracked P o (notify notice : Action α σ n Unit) :=
  of_aside ((closed_aside P).notice notice)

end Tracked

theorem tracked_factorize (P : Problem α σ n) (o : Session α σ n) :
    Tracked P o (factorize : Action α σ n Bool) := fun s _ =>
  (factorize_after s).mono (fun _ _ hrun _ => .single (.factored hrun)) fun _ _ _ h => h.elim

theorem tracked_factorDirect (hmethod : P.options.method = .direct) (o : Session α σ n) :
    Tracked P o (factorDirect : Action α σ n Bool) := fun s _ =>
  (factorDirect_after s).mono (fun _ _ hrun _ => .single (.factoredDirectly hmethod hrun))
    fun _ _ _ h => h.elim

theorem treads_evaluateJacobian (hmethod : P.options.method ≠ .damped → ¬ s.Ready)
    {f : Vector α n} (hf : Evaluated o s s.x f) : Treads P o (evaluateJacobian P s.x f) s := by
  unfold Treads After
  cases hrun : evaluateJacobian P s.x f s with
  | error halt t => exact ⟨s, .refl, .inr ⟨hmethod, f, halt, hf, hrun⟩⟩
  | ok answer t =>
    cases answer with
    | ok _ => exact .single (.evaluated hf hrun)
    | error mishap => exact .single (.rejected hrun)

theorem Reused.steps {iteration : Nat} {f : Vector α n} (h : Reused P f s t)
    (hs : s.Reusable P iteration) : Steps P o s t := by
  obtain rfl | ⟨J, hJ, rfl⟩ := h
  · exact .of_aside (.of_change rfl rfl rfl rfl rfl)
  · exact .single (.updated hs.current hs.elsewhere hJ)

theorem treads_prepareJacobian {iteration : Nat} {f : Vector α n} (hf : Evaluated o s s.x f) :
    Treads P o (prepareJacobian P iteration s.x f) s := by
  refine (prepareJacobian_after P iteration s.x f s).mono (fun answer t _ h => ?_)
    fun halt t _ ⟨hready, h⟩ => ⟨s, .refl, .inr ⟨fun _ => hready, f, halt, hf, h⟩⟩
  cases answer with
  | error mishap => exact .single (.rejected h.2)
  | ok fresh =>
    cases fresh with
    | false => exact h.2.steps h.1
    | true =>
      obtain ⟨_, rfl⟩ | ⟨_, h⟩ := h
      · exact .refl
      · exact .single (.evaluated hf h)

end

end AlgebraicLoop
