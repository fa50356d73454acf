import AlgebraicLoop.Proofs.Memories

/-!
# What stands in for a singular Jacobian

The first Jacobian that cannot be factored is replaced by its regularized normal matrix, the next one
by its pseudoinverse. Which remedy it is depends on a flag that outlives solves and checkpoints, and a
Jacobian that was marked beforehand does not ask for that flag. Such a mark is only made while the flag
is clear, so the order of the remedies is kept all the same.

* `standIn_recovery`, `standIn_kind`: which remedy a stand-in is made by;
* `Memory.MarkedFirst`: a mark is not made on a Jacobian that comes after a singular one;
* `factorize_escalates`: the rule, wherever a block comes to factor its Jacobian.
-/

namespace AlgebraicLoop
set_option autoImplicit false

section
variable {α σ : Type} [Scalar α] {n : Nat} {P : Problem α σ n} {s t : Session α σ n}

/-- A factorization has the factors of the Jacobian or puts a stand-in in their place. -/
theorem factorize_settles (s : Session α σ n) :
    (s.work.premarkedSingular = false ∧ ∃ lu t, LU.factor s.work.jacobian = .ok lu ∧
      factorize s = .ok true t ∧ t.work = s.work.withFactors lu) ∨
    s.work.Refused ∧ ∃ t,
      factorize s = .ok (standIn s.work.remedy s.work).factorization.isPresent t ∧
        t.work = s.work.recovered :=
  (factorize_cases s).imp
    (fun ⟨hmarked, lu, hfactor, hrun⟩ => ⟨hmarked, lu, _, hfactor, hrun, rfl⟩)
    fun ⟨hrefused, _, hrun⟩ => ⟨hrefused, _, hrun, rfl⟩

/-! ## Stand-ins -/

theorem standIn_regularized {w : Workspace α n} {lu : LU α n} (hn : n ≠ 1)
    (h : LU.factor (regularizedNormal w) = .ok lu) :
    (standIn .regularization w).factorization = .regularized lu := by
  unfold standIn
  rw [if_neg hn, if_pos rfl, h]

theorem standIn_minimumNorm {w : Workspace α n} {f : LeastNorm α n} (hn : n ≠ 1)
    (h : LeastNorm.factor w.jacobian = .ok f) :
    (standIn .minimumNorm w).factorization = .minimumNorm f := by
  unfold standIn leastNormFactors
  rw [if_neg hn, if_neg RecoveryMode.noConfusion, h]

/-- The remedy on record is the first one exactly if the regularized normal matrix is in place. -/
theorem standIn_recovery (hn : n ≠ 1) (mode : RecoveryMode) (w : Workspace α n) :
    (standIn mode w).recovery = .regularization ↔
      ∃ lu, (standIn mode w).factorization = .regularized lu := by
  obtain ⟨lu, _, h⟩ | h := standIn_cases hn mode w
  · rw [h]
    exact ⟨fun _ => ⟨lu, rfl⟩, fun _ => rfl⟩
  · rw [h]
    refine ⟨nofun, fun ⟨lu, hlu⟩ => ?_⟩
    obtain ⟨f, _, hf⟩ | ⟨hf, _⟩ := leastNormFactors_cases w.jacobian
    all_goals
      rw [hf] at hlu
      cases hlu

/-- A stand-in is not made of the factors of the Jacobian, and only a pseudoinverse can be missing. -/
theorem standIn_kind (mode : RecoveryMode) (w : Workspace α n) :
    (∀ lu, (standIn mode w).factorization ≠ .lu lu) ∧
      ((standIn mode w).factorization.isPresent = false →
        ∃ refusal, LeastNorm.factor w.jacobian = .error refusal) := by
  by_cases hn : n = 1
  · rw [standIn_alone hn]
    exact ⟨nofun, nofun⟩
  · obtain ⟨lu, _, h⟩ | h := standIn_cases hn mode w
    · rw [h]
      exact ⟨nofun, nofun⟩
    · rw [h]
      obtain ⟨f, _, hf⟩ | ⟨hf, hrefusal⟩ := leastNormFactors_cases w.jacobian
      · rw [hf]
        exact ⟨nofun, nofun⟩
      · rw [hf]
        exact ⟨nofun, fun _ => hrefusal⟩

/-! ## The order of the remedies -/

/-- A Jacobian that is marked beforehand does not come after a singular one, and only a damped solve
marks one. -/
def Memory.MarkedFirst (P : Problem α σ n) (m : Memory α n) : Prop :=
  m.premarkedSingular = true → P.options.method = .damped ∧ m.flags.singular = false

omit [Scalar α] in
theorem Memory.MarkedFirst.of_unmarked {m : Memory α n} (h : m.premarkedSingular = false) :
    m.MarkedFirst P := fun hmarked => by
  rw [h] at hmarked
  cases hmarked

omit [Scalar α] in
theorem Memory.MarkedFirst.of_eq {m m' : Memory α n} (h : m.MarkedFirst P)
    (hmarked : m'.premarkedSingular = m.premarkedSingular)
    (hsingular : m'.flags.singular = m.flags.singular) : m'.MarkedFirst P := by
  unfold MarkedFirst
  rw [hmarked, hsingular]
  exact h

theorem factorize_unmarked {usable : Bool} (h : factorize s = .ok usable t) :
    t.work.premarkedSingular = false := by
  obtain ⟨_, lu, u, _, hu, hwork⟩ | ⟨_, u, hu, hwork⟩ := factorize_settles s
  all_goals
    rw [h] at hu
    cases hu
    rw [hwork]
    rfl

theorem factorDirect_premarked (s : Session α σ n) :
    After factorDirect s (fun _ t => t.work.premarkedSingular = s.work.premarkedSingular)
      fun _ _ => False := by
  obtain ⟨_, _, hrun⟩ := factorDirect_run s
  unfold After
  rw [hrun]

/-- The mark is made while the last factorization had not failed, and a factorization takes it off. -/
theorem markedFirst_recollection (P : Problem α σ n) :
    Recollection P fun _ m => m.MarkedFirst P where
  fresh _ := .of_unmarked rfl
  later h _ := h
  kept h _ _ _ _ _ hmarked hsingular := h.of_eq hmarked hsingular
  evaluated h hrun :=
    have ⟨hmarked, hsingular⟩ := (evaluateJacobian_findings P _ _).ok hrun
    h.of_eq hmarked hsingular
  cutShort h hrun :=
    have ⟨hmarked, hsingular⟩ := (evaluateJacobian_findings P _ _).error hrun
    h.of_eq hmarked hsingular
  updated h _ := h.of_eq rfl rfl
  factored hrun := .of_unmarked (factorize_unmarked hrun)
  factoredDirectly hdirect h hrun hmarked := by
    have hdamped := (h (((factorDirect_premarked _).ok hrun).symm.trans hmarked)).1
    rw [hdirect] at hdamped
    cases hdamped
  marked hmethod hdoubtful _ _ := ⟨hmethod, hdoubtful.regular⟩

/-- What a factorization of the Jacobian in `s` leaves in `t`. -/
structure Escalated (s t : Session α σ n) (usable : Bool) : Prop where
  /-- The Jacobian can be factored and is not marked. -/
  factored : ∀ lu, s.work.premarkedSingular = false → LU.factor s.work.jacobian = .ok lu →
    usable = true ∧ t.work.factorization = .lu lu ∧ t.work.flags.singular = false ∧
      t.work.recovery = .regularization
  /-- The first one to be refused is regularized. -/
  first : n ≠ 1 → s.work.Refused → s.work.flags.singular = false →
    ∀ lu, LU.factor (regularizedNormal s.work) = .ok lu → t.work.factorization = .regularized lu
  /-- The next one is solved in the least-squares sense. -/
  again : n ≠ 1 → s.work.Refused → s.work.flags.singular = true →
    ∀ f, LeastNorm.factor s.work.jacobian = .ok f → t.work.factorization = .minimumNorm f
  recovery : n ≠ 1 → s.work.Refused →
    (t.work.recovery = .regularization ↔ ∃ lu, t.work.factorization = .regularized lu)
  singular : t.work.flags.singular = true ↔ ¬ ∃ lu, t.work.factorization = .lu lu
  unusable : usable = false →
    (∃ refusal, LeastNorm.factor s.work.jacobian = .error refusal) ∧ t.work.isFactored = false
  alone : n = 1 → s.work.Refused → usable = true ∧ t.work.factorization = .scalar

theorem escalated_of_factors {lu : LU α n} (hmarked : s.work.premarkedSingular = false)
    (hfactor : LU.factor s.work.jacobian = .ok lu) (hwork : t.work = s.work.withFactors lu) :
    Escalated s t true := by
  have haccepted : ¬ s.work.Refused := by
    rintro (h | ⟨refusal, h⟩)
    · rw [hmarked] at h
      cases h
    · rw [hfactor] at h
      cases h
  refine ⟨fun lu' _ h => ?_, fun _ h => absurd h haccepted, fun _ h => absurd h haccepted,
    fun _ h => absurd h haccepted, ?_, nofun, fun _ h => absurd h haccepted⟩
  · rw [hfactor] at h
    cases h
    rw [hwork]
    exact ⟨rfl, rfl, rfl, rfl⟩
  · rw [hwork]
    exact ⟨nofun, fun h => absurd ⟨lu, rfl⟩ h⟩

theorem escalated_of_remedy (hfirst : s.work.toMemory.MarkedFirst P) (hrefused : s.work.Refused)
    (hwork : t.work = s.work.recovered) :
    Escalated s t (standIn s.work.remedy s.work).factorization.isPresent := by
  have hfactors : t.work.factorization = (standIn s.work.remedy s.work).factorization := by
    rw [hwork]
    rfl
  obtain ⟨hkind, habsent⟩ := standIn_kind s.work.remedy s.work
  refine ⟨fun lu hmarked h => ?_, fun hn _ hsingular lu h => ?_, fun hn _ hsingular f h => ?_,
    fun hn _ => ?_, ?_, fun h => ⟨habsent h, ?_⟩, fun hn _ => ?_⟩
  · obtain hrefused | ⟨refusal, hrefused⟩ := hrefused
    · rw [hmarked] at hrefused
      cases hrefused
    · rw [h] at hrefused
      cases hrefused
  · have hremedy : s.work.remedy = .regularization := if_pos (.inr (by rw [hsingular]; rfl))
    rw [hfactors, hremedy]
    exact standIn_regularized hn h
  · have hremedy : s.work.remedy = .minimumNorm := by
      refine if_neg (not_or.2 ⟨fun hmarked => ?_, ?_⟩)
      · rw [(hfirst hmarked).2] at hsingular
        cases hsingular
      · rw [hsingular]
        exact Bool.false_ne_true
    rw [hfactors, hremedy]
    exact standIn_minimumNorm hn h
  · rw [hwork]
    exact standIn_recovery hn _ _
  · have hsingular : t.work.flags.singular = true := by
      rw [hwork]
      rfl
    rw [hfactors]
    exact ⟨fun _ ⟨lu, hlu⟩ => hkind lu hlu, fun _ => hsingular⟩
  · unfold Workspace.isFactored
    rw [hfactors, h, Bool.and_false]
  · rw [hfactors, standIn_alone hn]
    exact ⟨rfl, rfl⟩

/-- Wherever a block comes to factor its Jacobian, a mark on it does not come after a singular one, and
the factorization follows the order of the remedies. -/
theorem factorize_escalates {b : Block α σ n} {kept : List (Checkpoint α n)} (hb : Lived b kept)
    (hs : Factoring b s) :
    ¬ (s.work.premarkedSingular = true ∧ s.work.flags.singular = true) ∧
      ∃ usable t, factorize s = .ok usable t ∧ Escalated s t usable := by
  have hfirst : s.work.toMemory.MarkedFirst b.problem :=
    hs.recalls (markedFirst_recollection _) (hb.recalls markedFirst_recollection).1
  refine ⟨fun ⟨hmarked, hsingular⟩ => ?_, ?_⟩
  · rw [(hfirst hmarked).2] at hsingular
    cases hsingular
  · obtain ⟨hmarked, lu, t, hfactor, hrun, hwork⟩ | ⟨hrefused, t, hrun, hwork⟩ :=
      factorize_settles s
    · exact ⟨_, t, hrun, escalated_of_factors hmarked hfactor hwork⟩
    · exact ⟨_, t, hrun, escalated_of_remedy hfirst hrefused hwork⟩

end

/-! ## Two residuals that are the same -/

/-- A block whose Jacobian is singular everywhere. -/
def twinBlock : Block Float Unit 2 :=
  Block.pointwise Options.standard (.replicate 2 1) (onTwo fun x y => .ok (.replicate 2 (x + y)))

theorem twinBlock_lived : Lived twinBlock.factorizeJacobian.2 [] :=
  have hcreate : Lived twinBlock [] :=
    @Lived.create Float Unit _ 2 "loop" twinBlock.problem.model () Options.standard 0 .continuous
      twinBlock rfl
  hcreate.after .factorizeJacobian

set_option maxRecDepth 100000 in
/-- When it is asked for factors once more, the pseudoinverse stands in. -/
theorem factorize_escalates_twin :
    let b := twinBlock.factorizeJacobian.2
    ∃ s, Factoring b s ∧ s.work.Refused ∧ s.work.flags.singular = true ∧
      s.work.premarkedSingular = false ∧ ∃ usable t f, factorize s = .ok usable t ∧
        t.work.factorization = .minimumNorm f ∧ t.work.recovery = .minimumNorm ∧
        t.work.flags.singular = true := by
  intro b
  have hway : comesTo (freshJacobian b.problem) b.session (fun _ s =>
      s.work.flags.singular && ((LeastNorm.factor s.work.jacobian).toOption.any fun _ =>
        !(LU.factor s.work.jacobian).isOk)) = true := by decide +kernel
  obtain ⟨_, s, hs, hway⟩ := exists_of_comesTo hway
  obtain ⟨hsingular, hway⟩ := Bool.and_eq_true_iff.1 hway
  obtain ⟨f, hf, hrefusal⟩ := exists_of_toOption_any hway
  cases hlu : LU.factor s.work.jacobian with
  | ok lu =>
    rw [hlu] at hrefusal
    cases hrefusal
  | error refusal =>
    have hrefused : s.work.Refused := .inr ⟨refusal, hlu⟩
    obtain ⟨hmarks, usable, t, hrun, ht⟩ := factorize_escalates twinBlock_lived (.asked hs)
    have hfactors := ht.again (by decide) hrefused hsingular f hf
    refine ⟨s, .asked hs, hrefused, hsingular, ?_, usable, t, f, hrun, hfactors, ?_, ?_⟩
    · exact Bool.eq_false_iff.2 fun hmarked => hmarks ⟨hmarked, hsingular⟩
    · cases hrecovery : t.work.recovery with
      | minimumNorm => rfl
      | regularization =>
        obtain ⟨lu, hlu⟩ := (ht.recovery (by decide) hrefused).1 hrecovery
        rw [hfactors] at hlu
        cases hlu
    · refine ht.singular.2 ?_
      rintro ⟨lu, hlu⟩
      rw [hfactors] at hlu
      cases hlu

end AlgebraicLoop
