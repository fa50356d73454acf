import AlgebraicLoop.Proofs.Endeavours
import AlgebraicLoop.Proofs.FatalCalls
import AlgebraicLoop.Proofs.FinalPoints
import AlgebraicLoop.Proofs.RejectedCalls

/-!
# Limits that are in order

Numbers are confined between limits in two places: to the bounds where a solve starts again from the
nominal values, and to parts of the last part where a line search shortens its step. The limits of a
line search are always in order. Bounds that were taken are not in the wrong order either, but one
of them may not be a number, and then nothing can be confined to them.

* `Confines`: an action that finds no limits out of order;
* `closed_confines`, `setPointAction_confines`, `factorizeAction_confines`: all parts of a solve and
  all other operations;
* `Session.Boundless`, `restartFromNominal_boundless`: bounds that nothing can be confined to;
* `limits_in_order`: where limits can be out of order, whatever was done with a block.
-/

namespace AlgebraicLoop
set_option autoImplicit false

section
variable {α σ : Type} {n : Nat} {β γ : Type}

/-! ## Actions that confine what they are to confine -/

/-- However the action ends, it has not found limits out of order. -/
def Confines (a : Action α σ n β) : Prop := Shuns (fun halt => halt = .limitsOutOfOrder) a

theorem Confines.bind {a : Action α σ n β} {f : β → Action α σ n γ} (ha : Confines a)
    (hf : ∀ v, Confines (f v)) : Confines (a >>= f) := Shuns.bind ha hf

theorem confines_fail (fault : Fault α) : Confines (fail fault : Action α σ n β) := fun _ => nofun

theorem Block.perform_confines {action : Problem α σ n → Action α σ n β} {b : Block α σ n}
    (h : Confines (action b.problem)) : (b.perform action).1 ≠ .error .limitsOutOfOrder :=
  Block.perform_ends (Q := fun r _ => r ≠ .error .limitsOutOfOrder)
    ((h b.session).mono (fun _ _ _ _ => nofun) fun _ _ _ hnot hlimits =>
      hnot (Except.error.inj hlimits))

variable [Scalar α] {P : Problem α σ n} {s t : Session α σ n} {b : Block α σ n}

/-- Every part of a solve but its line searches and its nominal restarts confines nothing. -/
theorem closed_confines (P : Problem α σ n) :
    Closed P true (Session.setting P) fun _ a => Confines a :=
  setting_shuns (fun _ _ => nofun) P

/-! ## Everything but nominal restarts -/

theorem lineSearch_confines [LawfulScalar α] (P : Problem α σ n) (x f step : Vector α n)
    (length stepTolerance : α) : Confines (lineSearch P x f step length stepTolerance) :=
  (closed_confines P).lineSearch_of_lawful x f step length stepTolerance

theorem projectPoint_confines (P : Problem α σ n) : Confines (projectPoint P) := fun _ =>
  after_projectPoint trivial

theorem prepareUnknowns_confines (P : Problem α σ n) : Confines (prepareUnknowns P) := fun _ =>
  after_prepareUnknowns (fun _ => trivial) (fun _ _ _ _ _ => trivial) fun _ _ _ _ => nofun

theorem prelude_confines (P : Problem α σ n) : Confines (prelude P) := by
  refine Shuns.bind (shuns_modify _) fun _ => (prepareUnknowns_confines P).bind fun _ => ?_
  refine (projectPoint_confines P).bind fun _ => shuns_read fun s => ?_
  split
  · exact (closed_confines P).auxiliary s.x
  · exact shuns_pure _

theorem setPointAction_confines (P : Problem α σ n) (x : Array α) :
    Confines (setPointAction P x) := fun s =>
  after_setPointAction (fun _ => nofun) fun _ => prepareUnknowns_confines P s

theorem freshJacobian_confines (P : Problem α σ n) : Confines (freshJacobian P) := by
  rw [freshJacobian_eq]
  refine (prepareUnknowns_confines P).bind fun _ => ?_
  have hsetUp : Confines (setUp P) := fun _ => after_setUp (fun _ => trivial) fun _ => trivial
  exact (closed_confines P).startedJacobian hsetUp (shuns_modify _)
    (closed_confines P).stage.spot.footing.evaluateJacobian fun _ => confines_fail _

theorem jacobianAction_confines (P : Problem α σ n) : Confines (jacobianAction P) :=
  (freshJacobian_confines P).bind fun _ => shuns_read fun _ => shuns_pure _

theorem factorizeAction_confines (P : Problem α σ n) : Confines (factorizeAction P) := by
  refine (freshJacobian_confines P).bind fun _ => ?_
  refine (closed_confines P).stage.spot.footing.factorize.bind fun usable => ?_
  split
  · exact shuns_read fun _ => shuns_pure _
  · exact confines_fail _

omit [Scalar α] in
theorem restoreAction_confines {m : Nat} (checkpoint : Checkpoint α m) :
    Confines (restoreAction checkpoint : Action α σ n Unit) := by
  unfold restoreAction
  split
  · exact shuns_modify _
  · exact confines_fail _

/-! ## Bounds that nothing can be confined to -/

/-- Some bound is not a number. -/
def Session.Boundless (s : Session α σ n) : Prop :=
  ∃ i : Fin n, isNaN s.lower[i] = true ∨ isNaN s.upper[i] = true

/-- The session has started from bounds that are not in the wrong order. -/
def Session.Admitted (s : Session α σ n) : Prop := ∃ g : Givens α n, g.Ordered ∧ s.StartedFrom g

theorem Session.Admitted.ordered (h : s.Admitted) (i : Fin n) : ¬ s.lower[i] > s.upper[i] := by
  obtain ⟨g, hordered, hfrom⟩ := h
  rw [hfrom.lower, hfrom.upper]
  exact hordered i

/-- Bounds that were taken are out of order only if one of them is not a number. -/
theorem Session.Admitted.boundless_iff [LawfulScalar α] (h : s.Admitted) :
    (∃ i : Fin n, ¬ s.lower[i] ≤ s.upper[i]) ↔ s.Boundless := by
  refine exists_congr fun i => ⟨fun hnot => ?_, fun hnan hle => ?_⟩
  · refine Classical.byContradiction fun hreal => ?_
    obtain ⟨hlower, hupper⟩ := not_or.1 hreal
    obtain hle | hge := LawfulScalar.le_total s.lower[i] s.upper[i] (Bool.eq_false_iff.2 hlower)
      (Bool.eq_false_iff.2 hupper)
    · exact hnot hle
    · exact h.ordered i ((LawfulScalar.lt_iff _ _).2 ⟨hge, hnot⟩)
  · obtain ⟨hlower, hupper⟩ := LawfulScalar.real_of_le _ _ hle
    obtain hnan | hnan := hnan
    · exact Bool.false_ne_true (hlower.symm.trans hnan)
    · exact Bool.false_ne_true (hupper.symm.trans hnan)

/-- A restart from the nominal values finds the bounds out of order exactly where they are enforced
and one of them is not a number. -/
theorem restartFromNominal_boundless [LawfulScalar α] (h : s.Admitted) :
    (∃ t, restartFromNominal P s = .error .limitsOutOfOrder t) ↔
      P.options.enforceBounds = true ∧ s.Boundless := by
  rw [← h.boundless_iff]
  unfold restartFromNominal
  rw [get_bind_apply]
  cases hguess : nominalGuess? s.nominal s.lower s.upper P.options.enforceBounds with
  | none => exact ⟨fun _ => nominalGuess?_eq_none hguess, fun _ => ⟨s, rfl⟩⟩
  | some x =>
    refine ⟨fun ⟨t, ht⟩ => (by cases ht), fun ⟨henforce, i, hi⟩ => ?_⟩
    have hstart := nominalGuess?_eq_some hguess i
    unfold nominalStart? clamp? at hstart
    rw [if_pos henforce, if_neg hi] at hstart
    cases hstart

theorem prepareUnknowns_admitted (hs : s.phase = .untouched ∨ s.Admitted) :
    After (prepareUnknowns P) s (fun _ t => t.Admitted) fun _ _ => True := by
  obtain huntouched | hadmitted := hs
  · refine After.mono (prepareUnknowns_untouched P huntouched) (fun _ t _ ht => ?_)
      fun _ _ _ _ => trivial
    obtain ⟨g, _, hordered, hfrom⟩ := ht.startedFrom
    exact ⟨g, hordered, hfrom⟩
  · obtain ⟨_, _, hfrom⟩ := id hadmitted
    rw [after_congr (prepareUnknowns_again hfrom.started)]
    exact hadmitted

/-- Before its method a solve has bounds that were taken. -/
theorem prelude_admitted (hs : s.phase = .untouched ∨ s.Admitted) :
    After (prelude P) s (fun _ t => t.Admitted) fun _ _ => True := by
  refine (lasting_startedFrom P Givens.Ordered).prelude (Q := fun _ => True) (fun _ _ => trivial) ?_
  refine prepareUnknowns_admitted (hs.imp id fun hadmitted => ?_)
  obtain ⟨g, hordered, hfrom⟩ := hadmitted
  exact ⟨g, hordered, hfrom.keep hfrom.started rfl⟩

/-- A solve finds limits out of order only where the nominal values are confined to a bound that is
not a number. -/
theorem Block.solve_boundless [LawfulScalar α]
    (hb : b.session.phase = .untouched ∨ b.session.Admitted)
    (h : b.solve.1 = .error .limitsOutOfOrder) :
    b.problem.options.method = .damped ∧ b.problem.options.nominalFallback = true ∧
      b.problem.options.enforceBounds = true ∧ b.solve.2.session.Boundless := by
  have hends := b.solve_ends
  rw [h] at hends
  generalize b.solve.2.session = final at hends ⊢
  cases hends with
  | unstarted hu => exact absurd rfl ((prelude_confines b.problem _).error hu)
  | @halted _ u v hu hv =>
    have hadmitted : u.Admitted := (prelude_admitted hb).ok hu
    have hmethod := solveByMethod_after b.problem u
    rw [solveByMethod_eq] at hmethod
    cases hmethod.error (bind_error hv) with
    | aborted haborted =>
      obtain ⟨_, _, _, _, _, _, _, hhalt⟩ := haborted.last
      cases hhalt
    | outOfOrder hcalm houtOfOrder =>
      obtain ⟨hdamped, hfallback, henforce, hbounds⟩ := houtOfOrder
      obtain ⟨hlower, hrest⟩ := Prod.mk.inj hcalm.given
      obtain ⟨hupper, _⟩ := Prod.mk.inj hrest
      refine ⟨hdamped, hfallback, henforce, ?_⟩
      have hboundless := hadmitted.boundless_iff.1 hbounds
      unfold Session.Boundless Session.unmarked
      dsimp only
      rw [hlower, hupper]
      exact hboundless
  | failed hu hv hw => cases ((closeSolve_hands b.problem _ _).error hw).2.closing

/-- Whatever was done with a block, its start values being taken where it has started: no line
search, and no operation but a solve, finds limits out of order. A restart from the nominal values
does exactly where bounds are enforced and one of them is not a number; and a solve does only by the
damped method, where it may start again from the nominal values, and has such a bound to enforce. -/
theorem limits_in_order [LawfulScalar α] (hb : Handled b) :
    (∀ (x f step : Vector α n) (length stepTolerance : α) (s t : Session α σ n),
      lineSearch b.problem x f step length stepTolerance s ≠ .error .limitsOutOfOrder t) ∧
    (∀ x : Array α, (b.setPoint x).1 ≠ .error .limitsOutOfOrder) ∧
    b.evaluateJacobian.1 ≠ .error .limitsOutOfOrder ∧
    b.factorizeJacobian.1 ≠ .error .limitsOutOfOrder ∧
    (∀ (m : Nat) (checkpoint : Checkpoint α m),
      (b.restore checkpoint).1 ≠ .error .limitsOutOfOrder) ∧
    (b.session.phase ≠ .untouched →
      (∀ i : Fin n, ¬ b.session.lower[i] > b.session.upper[i]) ∧
      ((∃ t, restartFromNominal b.problem b.session = .error .limitsOutOfOrder t) ↔
        b.problem.options.enforceBounds = true ∧ b.session.Boundless)) ∧
    (b.solve.1 = .error .limitsOutOfOrder →
      b.problem.options.method = .damped ∧ b.problem.options.nominalFallback = true ∧
        b.problem.options.enforceBounds = true ∧ b.solve.2.session.Boundless) := by
  have hadmitted : b.session.phase = .untouched ∨ b.session.Admitted :=
    hb.startedFrom fun _ _ _ hordered => hordered
  refine ⟨fun x f step length stepTolerance s t hrun => ?_,
    fun x => Block.perform_confines (setPointAction_confines _ x),
    Block.perform_confines (jacobianAction_confines _),
    Block.perform_confines (factorizeAction_confines _),
    fun m checkpoint => Block.perform_confines (restoreAction_confines checkpoint),
    fun hstarted => ?_, Block.solve_boundless hadmitted⟩
  · exact (lineSearch_confines b.problem x f step length stepTolerance s).error hrun rfl
  · have hbounds := hadmitted.resolve_left hstarted
    exact ⟨hbounds.ordered, restartFromNominal_boundless hbounds⟩

end

/-! ## A bound that is not a number -/

/-- A block whose residual is defined nowhere, and whose only unknown has a lower bound that is not
a number. -/
def boundlessBlock : Block Float Unit 1 where
  problem :=
    { label := "loop"
      options := Options.standard
      model :=
        { Model.ofFunction fun _ => .error (.recoverable "undefined") with
          start := fun values s => (.ok { values with lower := #[0 / 0] }, s) }
      auxiliaryCount := 0
      variability := .continuous }
  session := Session.fresh 1 ()

set_option maxRecDepth 100000 in
/-- The first solve of such a block restarts from the nominal value, which it cannot confine. A
point is taken over all the same. -/
theorem limits_in_order_boundless :
    boundlessBlock.solve.1 = .error .limitsOutOfOrder ∧
      boundlessBlock.solve.2.session.Boundless ∧
      (boundlessBlock.setPoint #[3]).1 ≠ .error .limitsOutOfOrder := by
  have hcreated : Handled boundlessBlock :=
    @Handled.create Float Unit _ 1 "loop" boundlessBlock.problem.model () Options.standard 0
      .continuous boundlessBlock rfl
  have hsolve : boundlessBlock.solve.1 = .error .limitsOutOfOrder :=
    eq_error_of_haltOf? (by decide +kernel)
  obtain ⟨_, hpoint, _, _, _, _, hboundless⟩ := limits_in_order hcreated
  exact ⟨hsolve, (hboundless hsolve).2.2.2, hpoint #[3]⟩

end AlgebraicLoop
