import AlgebraicLoop.Proofs.CounterpartSolves
import AlgebraicLoop.Proofs.ExactUnits
import AlgebraicLoop.Proofs.FinalPoints
import AlgebraicLoop.Proofs.InsideBounds
import AlgebraicLoop.Proofs.Passages

/-!
# Solves in other units

With automatic residual scaling the first solve of a block does not depend on the units of its
equations, as long as no scale has to be clamped and every Jacobian can be factored. It asks for the
residual at the same points, and comes to the same result.

* `Model.scaled`, `Block.scaled`: every equation multiplied with a number of its own;
* `Block.opensScaled`: the first scales can be taken from a Jacobian;
* `solveAction_counterparts`: a fresh block and its counterpart in other units;
* `solve_scaled`: the same over numbers without rounding, where all units are at hand.
-/

namespace AlgebraicLoop
set_option autoImplicit false

section
variable {α σ ν : Type} [Scalar α] {n : Nat} {P : Problem α σ n} {E : Exchange α σ ν n}
  {s s' : Session α σ n}

/-! ## Fresh blocks -/

/-- Nothing is asked of the residual before the opening of a solve. -/
theorem prelude_problem (E : Exchange α σ ν n) (P : Problem α σ n) :
    prelude (E.problem P) = prelude P := rfl

theorem prelude_work {u : Session α σ n} (h : prelude P s = .ok () u) : u.work = s.work :=
  congrArg Prod.fst ((approached_prelude P s).ok h).course.keeps

/-- A fresh session corresponds to itself, in any units. -/
theorem mirror_fresh (hwork : s.work = Workspace.fresh n) (hpast : E.past = s.points)
    (hpast' : E.past' = s.points) :
    Mirror E (Rejected fun _ _ => True) (s.derived P).emptied (s.derived (E.problem P)).emptied := by
  have hsane : (s.derived P).emptied.gear.Sane := by
    unfold Session.derived
    rw [hwork]
    exact nofun
  have hcurrent : (s.derived P).emptied.gear.current = false := by
    unfold Session.derived
    rw [hwork]
    rfl
  refine ⟨?_, ⟨⟨hsane, hsane, trivial⟩, hcurrent, hcurrent⟩, rfl, [], ?_, ?_⟩
  · unfold Session.derived
    rw [hwork]
    rfl
  · rw [hpast, List.append_nil]
    rfl
  · rw [hpast', List.append_nil]
    rfl

/-- Whatever follows an opening that evaluated a Jacobian to take the scales from. -/
theorem solveDamped_unless (hE : E.Fits P) (hwork : s.work = Workspace.fresh n)
    (hpast : E.past = s.points) (hpast' : E.past' = s.points)
    (hcurrent : ∀ first t, openSolve P s = .ok first t → t.work.flags.jacobianCurrent = true) :
    Unless E (Solved E) (Mirror E (Loose fun _ _ => True)) (solveDamped P s)
      (solveDamped (E.problem P) s) := by
  have hready : s.work.ready = false := by rw [hwork]; rfl
  have hopen := openSolve_unless hE (T := Rejected fun _ _ => True) (R := fun _ _ => True)
    (fun _ _ h => ⟨⟨h.sane, h.sane', h.scale⟩, h.current, h.current'⟩)
    (fun _ _ h => .inr h.stale) (fun _ _ _ => trivial) hready hready
    (mirror_fresh hwork hpast hpast')
  rw [solveDamped_eq, solveDamped_eq]
  obtain hdisturbed | hmeets := hopen
  · exact .inl (hdisturbed.later (final_bind s (grows_afterOpening P))
      (final_bind s (grows_afterOpening (E.problem P))))
  · obtain ⟨first, first', t, t', hs, hs', hfirst, hmirror⟩ | ⟨halt, t, t', hs, hs', ht⟩ :=
      hmeets.ends
    · subst hfirst
      have hgeared : Mirror E (Geared P E.units E.units.Scaled) t t' := by
        refine hmirror.mono fun h => h.elim id fun h => ?_
        have hnot : t.work.flags.jacobianCurrent = false := h.elim (·.current) (·.current)
        exact absurd ((hcurrent _ _ hs).symm.trans hnot) Bool.noConfusion
      rw [bind_ok hs, bind_ok hs']
      refine (afterOpening_unless hE first' hgeared).mono (fun _ _ _ _ h => h) fun _ _ h => ?_
      exact h.mono fun hg => ⟨hg.sane, hg.sane', trivial⟩
    · rw [bind_error hs, bind_error hs']
      exact .inr ⟨rfl, ht⟩

/-! ## Whole solves -/

/-- The solve comes to its end with the same result at the same point, after the same requests for the
residual. -/
def SameCourse (r r' : EStateM.Result (Halt α) (Session α σ n) (Report α)) : Prop :=
  (resultOf r').1 = (resultOf r).1 ∧ (resultOf r').2.points = (resultOf r).2.points ∧
    (resultOf r').2.x = (resultOf r).2.x

theorem sameCourse_of_meets {R : Vector α n → Vector α n → Prop}
    {r r' : EStateM.Result (Halt α) (Session α σ n) (Report α)} (hpast : E.past' = E.past)
    (h : Meets (Solved E) (Mirror E (Loose R)) r r') : SameCourse r r' := by
  have hpoints : ∀ {T : Gear α n → Gear α n → Prop} {t t' : Session α σ n}, Mirror E T t t' →
      t'.points = t.points := by
    intro T t t' ht
    obtain ⟨new, hnew, hnew'⟩ := ht.points
    rw [hnew, hnew', hpast]
  obtain ⟨v, v', t, t', rfl, rfl, hv, ht⟩ | ⟨halt, t, t', rfl, rfl, ht⟩ := h.ends
  · exact ⟨congrArg Except.ok hv, hpoints ht, ht.x⟩
  · exact ⟨rfl, hpoints ht, ht.x⟩

/-- A fresh block and its counterpart in other units. -/
theorem solveAction_counterparts (hE : E.Fits P) (hdamped : P.options.method = .damped)
    (hwork : s.work = Workspace.fresh n)
    (hcurrent : ∀ u first t, prelude P s = .ok () u → openSolve P u = .ok first t →
      t.work.flags.jacobianCurrent = true)
    (hcalm : (final (solveAction P s)).Calm) (hcalm' : (final (solveAction (E.problem P) s)).Calm) :
    SameCourse (solveAction P s) (solveAction (E.problem P) s) := by
  have hmethod' : solveByMethod (E.problem P) = solveDamped (E.problem P) :=
    solveByMethod_damped hdamped
  rw [solveAction_eq, solveByMethod_damped hdamped] at hcalm ⊢
  rw [solveAction_eq, hmethod', prelude_problem] at hcalm' ⊢
  cases hprelude : prelude P s with
  | error halt u =>
    rw [bind_error hprelude, bind_error hprelude]
    exact ⟨rfl, rfl, rfl⟩
  | ok _ u =>
    rw [bind_ok hprelude] at hcalm hcalm' ⊢
    rw [bind_ok hprelude]
    let E' : Exchange α σ ν n := { E with past := u.points, past' := u.points }
    have hE' : E'.Fits P := ⟨hE.determined, hE.update, hE.check, hE.scaling⟩
    have hsolves := (solveDamped_unless hE' ((prelude_work hprelude).trans hwork) rfl rfl
      fun first t => hcurrent u first t hprelude).unmarked
    have hundisturbed : ¬ Disturbed E' _ _ := fun h => h.2 ⟨hcalm, hcalm'⟩
    exact sameCourse_of_meets rfl (hsolves.resolve_left hundisturbed)

/-- The Jacobian that the first residual scales are taken from can be evaluated, unless the solve ends
before. -/
def Block.opensScaled (b : Block α σ n) : Bool :=
  match prelude b.problem b.session with
  | .error _ _ => true
  | .ok _ u =>
    match openSolve b.problem u with
    | .error _ _ => true
    | .ok _ t => t.work.flags.jacobianCurrent

theorem Block.current_of_opensScaled {b : Block α σ n} (h : b.opensScaled = true)
    {u t : Session α σ n} {first : Bool} (hprelude : prelude b.problem b.session = .ok () u)
    (hopen : openSolve b.problem u = .ok first t) : t.work.flags.jacobianCurrent = true := by
  unfold Block.opensScaled at h
  rw [hprelude] at h
  dsimp only at h
  rw [hopen] at h
  exact h

omit [Scalar α] in
theorem Block.perform_result {β : Type} (b : Block α σ n) (action : Problem α σ n → Action α σ n β) :
    (b.perform action).1 = (resultOf (action b.problem b.session)).1 ∧
      (b.perform action).2.session = (resultOf (action b.problem b.session)).2 ∧
      (b.perform action).2.session = final (action b.problem b.session) := by
  unfold Block.perform
  cases action b.problem b.session with
  | ok _ _ => exact ⟨rfl, rfl, rfl⟩
  | error _ _ => exact ⟨rfl, rfl, rfl⟩

end

/-! ## All units, without rounding -/

section
open Exact
variable {K σ ν : Type} [Field K] [LinearOrder K] [IsStrictOrderedRing K] [SquareRoot K] {n : Nat}
  {view : σ → ν}

/-- Every entry multiplied with the number of its row. -/
def scaledRows (d : Fin n → K) (f : Vector (Exact K) n) : Vector (Exact K) n :=
  Vector.ofFn fun i => finite (d i) * f[i]

/-- Every row multiplied with its number. -/
def scaledMatrix (d : Fin n → K) (A : Mat (Exact K) n n) : Mat (Exact K) n n :=
  Vector.ofFn fun i => A[i].map (finite (d i) * ·)

/-- The model with every equation multiplied with its number, and its exact derivatives with it. -/
def Model.scaled (d : Fin n → K) (m : Model (Exact K) σ n) : Model (Exact K) σ n :=
  { m with
    evaluate := fun x s => ((m.evaluate x s).1.map (scaledRows d), (m.evaluate x s).2)
    jacobian := m.jacobian.map fun J x s => (J x s).map (scaledMatrix d)
    directional := m.directional.map fun D x direction s =>
      ((D x direction s).1.map (scaledRows d), (D x direction s).2) }

/-- The block with every equation multiplied with its number. -/
def Block.scaled (d : Fin n → K) (b : Block (Exact K) σ n) : Block (Exact K) σ n :=
  { b with problem := { b.problem with model := b.problem.model.scaled d } }

/-- With automatic residual scaling the first solve of a block evaluates the residual at the same points
and comes to the same result, in whatever units the equations are written. -/
theorem solve_scaled {d : Fin n → K} (hd : ∀ i, 0 < d i) {b : Block (Exact K) σ n}
    (hmodel : Determined b.problem.model view) (hdamped : b.problem.options.method = .damped)
    (hscaling : b.problem.options.residualScaling = .automatic)
    (hupdate : b.problem.options.jacobianUpdate = .full ∨ b.problem.options.jacobianUpdate = .reuse ∨
      b.problem.options.jacobianUpdate = .broyden)
    (hcheck : b.problem.options.checkJacobian = false) (hfresh : b.session.work = Workspace.fresh n)
    (hopens : b.opensScaled = true) (hcalm : b.solve.2.session.Calm)
    (hcalm' : (b.scaled d).solve.2.session.Calm) :
    (b.scaled d).solve.1 = b.solve.1 ∧
      (b.scaled d).solve.2.session.points = b.solve.2.session.points ∧
      (b.scaled d).solve.2.session.x = b.solve.2.session.x := by
  let E : Exchange (Exact K) σ ν n := ⟨.diagonal d hd, view, [], []⟩
  have hproblem : E.problem b.problem = (b.scaled d).problem := rfl
  have hE : E.Fits b.problem := ⟨hmodel, .inr hupdate, .inr hcheck, .inr hscaling⟩
  obtain ⟨hresult, hsession, hfinal⟩ := b.perform_result solveAction
  obtain ⟨hresult', hsession', hfinal'⟩ := (b.scaled d).perform_result solveAction
  have hsame := solveAction_counterparts hE hdamped hfresh
    (fun u first t => Block.current_of_opensScaled hopens) (hfinal ▸ hcalm) (hfinal' ▸ hcalm')
  rw [hproblem] at hsame
  obtain ⟨hone, hpoints, hx⟩ := hsame
  unfold Block.solve
  rw [hresult, hresult', hsession, hsession']
  exact ⟨hone, hpoints, hx⟩

end

/-! ## A block of rational numbers -/

/-- A block of two equations. -/
def pairBlock : Block (Exact ℚ) Unit 2 :=
  Block.pointwise Options.standard #v[.finite (5 / 4), .finite 1]
    (onTwo fun x y => .ok (pair (x * x - y) (x + y - 2)))

theorem Session.calm_of_all {α σ : Type} {n : Nat} {s : Session α σ n}
    (h : s.notices.all (fun notice => !notice.disturbs) = true) : s.Calm := by
  intro notice hnotice
  simpa using Array.all_eq_true_iff_forall_mem.mp h notice hnotice

set_option maxRecDepth 100000 in
/-- The first equation three times as large, the second a seventh. -/
theorem solve_scaled_pair :
    let b' := pairBlock.scaled ![3, 1 / 7]
    pairBlock.attempts? = some 2 ∧ b'.solve.1 = pairBlock.solve.1 ∧
      b'.solve.2.session.points = pairBlock.solve.2.session.points ∧
      b'.solve.2.session.x = pairBlock.solve.2.session.x := by
  intro b'
  have hpositive : ∀ i : Fin 2, 0 < (![3, 1 / 7] : Fin 2 → ℚ) i := by decide +kernel
  have hcalm : pairBlock.solve.2.session.Calm := Session.calm_of_all (by decide +kernel)
  have hcalm' : b'.solve.2.session.Calm := Session.calm_of_all (by decide +kernel)
  exact ⟨by decide +kernel, solve_scaled hpositive (determined_pointwise _ _ _) rfl rfl (.inl rfl) rfl
    rfl (by decide +kernel) hcalm hcalm'⟩

end AlgebraicLoop
