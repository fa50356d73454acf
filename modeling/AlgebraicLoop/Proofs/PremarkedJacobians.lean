import AlgebraicLoop.Proofs.SingularRecovery

/-!
# Jacobians that are marked beforehand

An update of the residual scales may find the scaled Jacobian too ill-conditioned to be used as it is,
and then marks it. The mark stays until the next factorization, also when the Jacobian is evaluated
anew or updated before, or when the solve ends; so it may strike a Jacobian that was never looked at.
It is for the Jacobian that was found ill-conditioned as long as no newer one has come, and no
evaluation was cut short.

* `Session.Judged`, `Reworked`: where a mark comes from, and what happens to the Jacobian under it;
* `Inherits`, `inherits_recollection`: what a mark says of a memory;
* `premarked_judged`: what it says where the Jacobian comes to be factored.
-/

namespace AlgebraicLoop
set_option autoImplicit false

section
variable {α σ : Type} [Scalar α] {n : Nat} {P : Problem α σ n} {r s t : Session α σ n}

/-! ## Marks -/

/-- An update of the residual scales ended here: it found the scaled Jacobian ill-conditioned and
marked it. -/
structure Session.Judged (P : Problem α σ n) (r : Session α σ n) : Prop where
  doubtful : r.Doubtful P
  marked : r.work.premarkedSingular = true
  update : ∃ q, updateResidualScales P q = .ok () r

/-- The second memory comes from the first one, under its mark and without a factorization: the
Jacobian was evaluated, perhaps in part, or updated, or stayed what it was. -/
inductive Reworked (P : Problem α σ n) (m : Memory α n) : Memory α n → Prop
  | refl : Reworked P m m
  | kept {m' m'' : Memory α n} : Reworked P m m' → m''.jacobian = m'.jacobian →
      m''.factorization = m'.factorization → m''.generation = m'.generation →
      m''.premarkedSingular = m'.premarkedSingular → Reworked P m m''
  | evaluated {s t : Session α σ n} {x f : Vector α n} {answer : Except Mishap Unit} :
      Reworked P m s.work.toMemory → evaluateJacobian P x f s = .ok answer t →
      Reworked P m t.work.toMemory
  | cutShort {s t : Session α σ n} {x f : Vector α n} {halt : Halt α} :
      Reworked P m s.work.toMemory → evaluateJacobian P x f s = .error halt t →
      Reworked P m t.work.toMemory
  | updated {s : Session α σ n} {f : Vector α n} {J : Mat α n n} :
      Reworked P m s.work.toMemory →
      secantUpdate? P.options.jacobianUpdate s.work f = some J →
      Reworked P m (s.updated J).work.toMemory

/-- The matrix was left behind when a fatal answer cut an evaluation of the Jacobian short, and no
factorization came between the first memory and that. -/
def LeftBehind (P : Problem α σ n) (m : Memory α n) (t : Session α σ n) (J : Mat α n n) : Prop :=
  ∃ x f halt q y, Reworked P m q.work.toMemory ∧ evaluateJacobian P x f q = .error halt y ∧
    y.work.jacobian = J ∧ Trail y t

/-- What the mark that was made in `r` says of a memory, seen from the session `t`: a Jacobian that can
be used and is not newer is the one that was judged, unless an evaluation was cut short. -/
structure Inherits (P : Problem α σ n) (r t : Session α σ n) (m : Memory α n) : Prop where
  judged : r.Judged P
  trail : Trail r t
  reworked : Reworked P r.work.toMemory m
  newer : r.work.generation ≤ m.generation
  same : m.flags.jacobianCurrent = true → m.generation = r.work.generation →
    m.jacobian = r.work.jacobian ∨ LeftBehind P r.work.toMemory t m.jacobian

namespace Inherits

theorem of_doubtful {q : Session α σ n} (hs : s.Doubtful P)
    (h : updateResidualScales P q = .ok () s.marked) :
    Inherits P s.marked s.marked s.marked.work.toMemory where
  judged := ⟨⟨hs.poorlyScaled, hs.regular, hs.current, hs.exceeds⟩, rfl, q, h⟩
  trail := Course.refl _ _
  reworked := .refl
  newer := Nat.le_refl _
  same _ _ := .inl rfl

theorem later {m : Memory α n} (h : Inherits P r s m) (hst : Trail s t) : Inherits P r t m where
  judged := h.judged
  trail := h.trail.trans hst
  reworked := h.reworked
  newer := h.newer
  same hcurrent hgeneration := (h.same hcurrent hgeneration).imp_right
    fun ⟨x, f, halt, q, y, hq, hrun, hJ, hys⟩ => ⟨x, f, halt, q, y, hq, hrun, hJ, hys.trans hst⟩

theorem kept (h : Inherits P r s s.work.toMemory) (hst : Trail s t)
    (hjacobian : t.work.jacobian = s.work.jacobian)
    (hfactors : t.work.factorization = s.work.factorization)
    (hgeneration : t.work.generation = s.work.generation)
    (hcurrent : t.work.flags.jacobianCurrent = s.work.flags.jacobianCurrent)
    (hmarked : t.work.premarkedSingular = s.work.premarkedSingular) :
    Inherits P r t t.work.toMemory where
  judged := h.judged
  trail := h.trail.trans hst
  reworked := h.reworked.kept hjacobian hfactors hgeneration hmarked
  newer := by
    rw [hgeneration]
    exact h.newer
  same hc hg := by
    rw [hcurrent] at hc
    rw [hgeneration] at hg
    rw [hjacobian]
    exact (h.later hst).same hc hg

/-- A newer Jacobian need not be the one that was judged. -/
theorem outdated (h : Inherits P r s s.work.toMemory) (hst : Trail s t)
    (hreworked : Reworked P r.work.toMemory t.work.toMemory)
    (hgeneration : t.work.generation = s.work.generation + 1) :
    Inherits P r t t.work.toMemory where
  judged := h.judged
  trail := h.trail.trans hst
  reworked := hreworked
  newer := by
    have hnewer := h.newer
    omega
  same _ hg := by
    have hnewer := h.newer
    omega

theorem evaluated {x f : Vector α n} {answer : Except Mishap Unit}
    (h : Inherits P r s s.work.toMemory) (hrun : evaluateJacobian P x f s = .ok answer t) :
    Inherits P r t t.work.toMemory := by
  have hmarks := (evaluateJacobian_after P x f s).ok hrun
  have htrail : Trail s t := ((course_evaluateJacobian P x f).ok hrun).trail
  have hreworked := h.reworked.evaluated hrun
  cases answer with
  | ok _ => exact h.outdated htrail hreworked (congrArg Marks.generation hmarks.1)
  | error mishap =>
    have hgeneration : t.work.generation = s.work.generation := congrArg Marks.generation hmarks
    have hcurrent : t.work.flags.jacobianCurrent = false := congrArg Marks.current hmarks
    refine ⟨h.judged, h.trail.trans htrail, hreworked, ?_, fun hc => ?_⟩
    · rw [hgeneration]
      exact h.newer
    · rw [hcurrent] at hc
      cases hc

theorem cutShort {x f : Vector α n} {halt : Halt α} (h : Inherits P r s s.work.toMemory)
    (hrun : evaluateJacobian P x f s = .error halt t) : Inherits P r t t.work.toMemory := by
  have htrail : Trail s t := ((course_evaluateJacobian P x f).error hrun).trail
  refine ⟨h.judged, h.trail.trans htrail, h.reworked.cutShort hrun, ?_,
    fun _ _ => .inr ⟨x, f, halt, s, t, h.reworked, hrun, rfl, Course.refl _ t⟩⟩
  obtain hmarks | ⟨hmarks, _⟩ := (evaluateJacobian_after P x f s).error hrun
  · have hgeneration : t.work.generation = s.work.generation := congrArg Marks.generation hmarks
    rw [hgeneration]
    exact h.newer
  · have hgeneration : t.work.generation = s.work.generation + 1 :=
      congrArg Marks.generation hmarks
    have hnewer := h.newer
    omega

end Inherits

/-- A mark has been made by some update of the residual scales. -/
theorem inherits_recollection (P : Problem α σ n) :
    Recollection P fun t m => m.premarkedSingular = true →
      P.options.method = .damped ∧ ∃ r, Inherits P r t m where
  fresh _ h := by cases h
  later h hst hmarked := (h hmarked).imp_right fun ⟨r, hr⟩ => ⟨r, hr.later hst⟩
  kept h hst hjacobian hfactors hgeneration hcurrent hsame _ hmarked :=
    (h (hsame.symm.trans hmarked)).imp_right fun ⟨r, hr⟩ =>
      ⟨r, hr.kept hst hjacobian hfactors hgeneration hcurrent hsame⟩
  evaluated h hrun hmarked :=
    have hsame := ((evaluateJacobian_findings P _ _).ok hrun).1
    (h (hsame.symm.trans hmarked)).imp_right fun ⟨r, hr⟩ => ⟨r, hr.evaluated hrun⟩
  cutShort h hrun hmarked :=
    have hsame := ((evaluateJacobian_findings P _ _).error hrun).1
    (h (hsame.symm.trans hmarked)).imp_right fun ⟨r, hr⟩ => ⟨r, hr.cutShort hrun⟩
  updated h hJ hmarked := (h hmarked).imp_right fun ⟨r, hr⟩ =>
    ⟨r, hr.outdated (Course.of_eq rfl rfl rfl) (hr.reworked.updated hJ) rfl⟩
  factored hrun hmarked := by
    rw [factorize_unmarked hrun] at hmarked
    cases hmarked
  factoredDirectly hdirect h hrun hmarked := by
    have hdamped := (h (((factorDirect_premarked _).ok hrun).symm.trans hmarked)).1
    rw [hdirect] at hdamped
    cases hdamped
  marked hmethod hdoubtful h _ := ⟨hmethod, _, .of_doubtful hdoubtful h⟩

/-! ## Where a marked Jacobian comes to be factored -/

theorem freshJacobian_current (h : freshJacobian P s = .ok () t) :
    t.work.flags.jacobianCurrent = true := by
  unfold freshJacobian at h
  obtain ⟨_, u, _, h⟩ := bind_eq_ok.1 h
  obtain ⟨_, v, _, h⟩ := bind_eq_ok.1 h
  rw [get_bind_apply] at h
  obtain ⟨answer, w, _, h⟩ := bind_eq_ok.1 h
  cases answer with
  | error mishap => cases h
  | ok f =>
    dsimp only at h
    rw [modifyWork_bind_apply] at h
    obtain ⟨status, y, hrun, h⟩ := bind_eq_ok.1 h
    cases status with
    | error mishap => cases h
    | ok _ =>
      cases h
      exact congrArg Marks.current ((evaluateJacobian_after P _ _ _).ok hrun).1

/-- A Jacobian that comes to be factored can be used. -/
theorem Factoring.current {b : Block α σ n} (h : Factoring b s) :
    s.work.flags.jacobianCurrent = true := by
  cases h with
  | @solving k f r u v _ fresh tighten norm norm' _ _ _ hprepare htighten _ =>
    have hvs : Aside v s := (aside_tightenedNorm b.problem tighten k fresh u.x f norm).ok htighten
    rw [hvs.current]
    exact prepareJacobian_current hprepare
  | asked hs => exact freshJacobian_current hs

end

/-! ## A mark that outlives its Jacobian -/

/-- The loop `a x = c`, with the coefficients in the state of the model. -/
def gaugeBlock : Block Float (Float × Float) 1 where
  problem :=
    { label := "loop"
      options := Options.standard
      model :=
        { start := fun values p => (.ok values, p)
          evaluate := fun x p => (.ok (x.map fun x => p.1 * x - p.2), p)
          evaluateAuxiliary := fun _ p => (.ok (), p)
          writeBack := fun _ p => (.ok (), p)
          residualNominals := fun _ => none
          jacobian := none
          directional := none
          pattern := fun _ => none }
      auxiliaryCount := 0
      variability := .continuous }
  session := Session.fresh 1 (0, 0)

/-- The block after it was solved without a step, with other coefficients from then on. -/
def regaugedBlock : Block Float (Float × Float) 1 := gaugeBlock.solve.2.modifyModel fun _ => (2, 6)

theorem regaugedBlock_lived : Lived regaugedBlock [] :=
  have hcreate : Lived gaugeBlock [] :=
    @Lived.create Float (Float × Float) _ 1 "loop" gaugeBlock.problem.model (0, 0) Options.standard
      0 .continuous gaugeBlock rfl
  (hcreate.after .solve).modifyModel fun _ => (2, 6)

end AlgebraicLoop
