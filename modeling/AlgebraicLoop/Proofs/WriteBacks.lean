import AlgebraicLoop.Proofs.Endeavours

/-!
# Handing the point over

A solve hands its point over to the model at one place, its close. Nothing before the close asks the
model to take over a point, and nothing after that asks the model for anything. So a solve that
comes to a report or to the verdict that it did not converge has handed over the point it leaves,
once and in its last request; and a solve that halts otherwise has handed over nothing, unless the
model refused the point.

* `Spares`, `Withholds`: sessions and actions without a write-back;
* `pervading_withholds`: everything before the close is one of these;
* `HandsOver`: a last request that hands over the point;
* `solve_hands_over`: all ends of a solve.
-/

namespace AlgebraicLoop
set_option autoImplicit false

/-- Was the model asked to take over a point? -/
def Call.isWriteBack {α : Type} {n : Nat} : Call α n → Bool
  | .writeBack _ _ => true
  | .start _ | .evaluate _ _ | .evaluateAuxiliary _ _ | .jacobian _ _ | .directional _ _ _ => false

/-! ## Before the close -/

section
variable {α σ : Type} {n : Nat}

/-- The second session follows on the first one without a write-back. -/
structure Spares (s t : Session α σ n) : Prop where
  calls : t.calls.toList = s.calls.toList ++ callsSince s t
  spared : ∀ c ∈ callsSince s t, c.isWriteBack = false

namespace Spares
variable {s t u : Session α σ n}

theorem of_eq (h : t.calls = s.calls) : Spares s t := by
  have new : t.calls.toList = s.calls.toList ++ [] := by rw [h, List.append_nil]
  refine ⟨?_, fun c hc => ?_⟩
  · rw [callsSince_of_eq new, new]
  · rw [callsSince_of_eq new] at hc
    cases hc

theorem of_call {c : Call α n} (h : t.calls = s.calls.push c) (hc : c.isWriteBack = false) :
    Spares s t := by
  have new : t.calls.toList = s.calls.toList ++ [c] := by rw [h, Array.toList_push]
  refine ⟨?_, fun d hd => ?_⟩
  · rw [callsSince_of_eq new, new]
  · rw [callsSince_of_eq new] at hd
    rw [List.mem_singleton.1 hd]
    exact hc

theorem trans (hst : Spares s t) (htu : Spares t u) : Spares s u := by
  have hsince : callsSince s u = callsSince s t ++ callsSince t u :=
    callsSince_trans hst.calls htu.calls
  refine ⟨?_, fun c hc => ?_⟩
  · rw [hsince, htu.calls, hst.calls, List.append_assoc]
  · rw [hsince] at hc
    exact (List.mem_append.1 hc).elim (hst.spared c) (htu.spared c)

end Spares

/-- The action makes no write-back, and does not halt as a close does. -/
def Withholds {β : Type} (a : Action α σ n β) : Prop :=
  ∀ s, After a s (fun _ t => Spares s t) fun halt t => Spares s t ∧ ¬ halt.Closing

theorem Withholds.bind {β γ : Type} {a : Action α σ n β} {f : β → Action α σ n γ}
    (ha : Withholds a) (hf : ∀ v, Withholds (f v)) : Withholds (a >>= f) := fun s =>
  (ha s).bind fun v t hst =>
    (hf v t).mono (fun _ _ _ htu => hst.trans htu) fun _ _ _ h => ⟨hst.trans h.1, h.2⟩

theorem withholds_differentiate {β : Type} (request : Answer σ β)
    {record : Except EvalFailure β → Call α n}
    (hrecord : ∀ answer, (record answer).isWriteBack = false) :
    Withholds (ask request record >>= settleAnswer .differentiate) := fun _ =>
  after_request (fun _ _ => ⟨.of_call rfl (hrecord _), nofun⟩)
    (fun _ _ => .of_call rfl (hrecord _)) fun _ _ => .of_call rfl (hrecord _)

variable [Scalar α]

theorem withholds_evaluate (P : Problem α σ n) (x : Vector α n) : Withholds (evaluate P x) :=
  fun _ => after_evaluate (fun _ _ => ⟨.of_call rfl rfl, nofun⟩) (fun _ _ => .of_call rfl rfl)
    (fun _ _ _ _ => .of_call rfl rfl) fun _ _ _ => .of_call rfl rfl

omit [Scalar α] in
theorem withholds_updateAuxiliary (P : Problem α σ n) (x : Vector α n) :
    Withholds (updateAuxiliary P x) := fun _ =>
  after_updateAuxiliary (fun _ _ => ⟨.of_call rfl rfl, nofun⟩) (fun _ _ => .of_call rfl rfl)
    fun _ => .of_call rfl rfl

/-- Everything before the close of a solve makes no write-back. -/
theorem pervading_withholds (P : Problem α σ n) : Pervading P fun _ a => Withholds a where
  value _ _ := .of_eq rfl
  seq ha hf := ha.bind hf
  read hf s := hf s s
  change hg s := .of_eq (hg s).calls
  halt h _ := ⟨.of_eq rfl, h⟩
  start _ _ := .of_call rfl rfl
  residual := withholds_evaluate P
  jacobian _ _ _ _ := withholds_differentiate _ fun _ => rfl
  directional _ _ _ _ := withholds_differentiate _ fun _ => rfl
  auxiliary := withholds_updateAuxiliary P
  move hcalls _ s := .of_eq (hcalls s)

/-! ## The close -/

/-- Between the two sessions the point of the second one was handed over to the model, with the
given answer: once, and in the last request. The model is left as it was then. -/
def HandsOver (P : Problem α σ n) (answer : Except EvalFailure Unit) (s t : Session α σ n) : Prop :=
  ∃ (before : List (Call α n)) (m : σ),
    callsSince s t = before ++ [.writeBack t.x answer] ∧
      (∀ c ∈ before, c.isWriteBack = false) ∧ P.model.writeBack t.x m = (answer, t.model)

variable {P : Problem α σ n}

omit [Scalar α] in
theorem Spares.handsOver {s t u : Session α σ n} (hst : Spares s t) (htu : Handed P t u) :
    HandsOver P (P.model.writeBack t.x t.model).1 s u.unmarked := by
  have hcalls : u.calls.toList = s.calls.toList ++
      (callsSince s t ++ [.writeBack t.x (P.model.writeBack t.x t.model).1]) := by
    rw [htu.calls, Array.toList_push, hst.calls, List.append_assoc]
  refine ⟨callsSince s t, t.model, ?_, hst.spared, ?_⟩
  · have hx : u.unmarked.x = t.x := htu.x
    rw [hx]
    exact callsSince_of_eq hcalls
  · have hx : u.unmarked.x = t.x := htu.x
    have hmodel : u.unmarked.model = (P.model.writeBack t.x t.model).2 := htu.model
    rw [hx, hmodel]

/-- The ends of a solve, each with the point that it handed over. -/
theorem Block.solve_handed (b : Block α σ n) :
    (∃ halt, b.solve.1 = .error halt ∧ ¬ halt.Closing ∧ Spares b.session b.solve.2.session) ∨
      ∃ answer report, HandsOver b.problem answer b.session b.solve.2.session ∧
        (answer = .ok () ∧ (∃ report, b.solve.1 = .ok report) ∨
          ∃ halt, b.solve.1 = .error halt ∧ Closes report answer halt) := by
  have hpervading := pervading_withholds b.problem
  have hends := b.solve_ends
  have hprelude : ∀ {u}, prelude b.problem b.session = .ok () u → Spares b.session u := fun hu =>
    (hpervading.prelude b.session).ok hu
  have hendeavour : ∀ {standing u v}, prelude b.problem b.session = .ok () u →
      endeavour b.problem u = .ok standing v → Spares b.session v := fun hu hv =>
    (hprelude hu).trans ((hpervading.endeavour _).ok hv)
  generalize b.solve.1 = result at hends ⊢
  generalize b.solve.2.session = final at hends ⊢
  cases hends with
  | unstarted hu =>
    obtain ⟨hspares, hhalt⟩ := (hpervading.prelude b.session).error hu
    exact .inl ⟨_, rfl, hhalt, hspares⟩
  | halted hu hv =>
    obtain ⟨hspares, hhalt⟩ := (hpervading.endeavour _).error hv
    exact .inl ⟨_, rfl, hhalt, ((hprelude hu).trans hspares).trans (.of_eq rfl)⟩
  | @closed standing report u v w hu hv hw =>
    obtain ⟨hhanded, hanswer, _⟩ := (closeSolve_hands b.problem standing v).ok hw
    have hover := (hendeavour hu hv).handsOver hhanded
    exact .inr ⟨_, standing.report, hover, .inl ⟨hanswer, report, rfl⟩⟩
  | @failed standing halt u v w hu hv hw =>
    obtain ⟨hhanded, hcloses⟩ := (closeSolve_hands b.problem standing v).error hw
    have hover := (hendeavour hu hv).handsOver hhanded
    exact .inr ⟨_, standing.report, hover, .inr ⟨halt, rfl, hcloses⟩⟩

/-- A solve that succeeds, or comes to the verdict that it did not converge, hands the point that it
leaves over to the model, once and in its last request. A solve that halts because the model refused
the point made no other write-back, and one that halts in any other way made none. Once the point is
handed over, the rest of the solve is the same for every model that takes over points in the same
way. -/
theorem solve_hands_over (b : Block α σ n) :
    (∀ report, b.solve.1 = .ok report →
      HandsOver b.problem (.ok ()) b.session b.solve.2.session) ∧
    (∀ details, b.solve.1 = .error (.fault (.unconverged details)) →
      HandsOver b.problem (.ok ()) b.session b.solve.2.session) ∧
    (∀ reason, b.solve.1 = .error (.fault (.modelFatal .writeBack reason)) →
      ∃ failure : EvalFailure, failure.reason = reason ∧
        HandsOver b.problem (.error failure) b.session b.solve.2.session) ∧
    (∀ halt, b.solve.1 = .error halt → ¬ halt.Closing →
      ∀ c ∈ callsSince b.session b.solve.2.session, c.isWriteBack = false) ∧
    solveByMethod b.problem = endeavour b.problem >>= closeSolve b.problem ∧
    ∀ (M : Model α σ n) (standing : Standing α), M.writeBack = b.problem.model.writeBack →
      closeSolve { b.problem with model := M } standing = closeSolve b.problem standing := by
  have hends := b.solve_handed
  refine ⟨fun report hresult => ?_, fun details hresult => ?_, fun reason hresult => ?_,
    fun halt hresult hhalt => ?_, solveByMethod_eq b.problem,
    fun M standing hM => closeSolve_writeBack_only hM standing⟩
  all_goals
    rw [hresult] at hends
  · obtain ⟨_, e, _⟩ | ⟨answer, _, hover, ⟨rfl, _⟩ | ⟨_, e, _⟩⟩ := hends
    · cases e
    · exact hover
    · cases e
  · obtain ⟨_, e, hclosing, _⟩ | ⟨answer, _, hover, ⟨_, _, e⟩ | ⟨_, e, hcloses⟩⟩ := hends
    · cases e
      exact absurd (.unconverged details) hclosing
    · cases e
    · cases e
      cases hcloses
      exact hover
  · obtain ⟨_, e, hclosing, _⟩ | ⟨answer, _, hover, ⟨_, _, e⟩ | ⟨_, e, hcloses⟩⟩ := hends
    · cases e
      exact absurd (.refused reason) hclosing
    · cases e
    · cases e
      cases hcloses with
      | refused failure => exact ⟨failure, rfl, hover⟩
  · obtain ⟨_, e, _, hspares⟩ | ⟨_, _, _, ⟨_, _, e⟩ | ⟨_, e, hcloses⟩⟩ := hends
    · exact hspares.spared
    · cases e
    · cases e
      exact absurd hcloses.closing hhalt

end

/-- A block without a solution, that stops after one iteration of each attempt. -/
def floatingBlock : Block Float Unit 1 :=
  Block.pointwise { Options.standard with maxIterations := 1 } (.singleton 1)
    fun x => .ok (x.map fun x => x * x + 1)

/-- A block whose model does not take over any point. -/
def stubbornBlock : Block Float Unit 1 :=
  { twoBlock with
    problem.model.writeBack := fun _ s => (.error (.recoverable "kept"), s) }

set_option maxRecDepth 100000 in
/-- The solution is handed over, the point of a solve that did not converge is handed over as well,
and a model that refuses the solution is asked only once. -/
theorem solve_hands_over_points :
    (∃ report, twoBlock.solve.1 = .ok report ∧ twoBlock.solve.2.session.x = #v[2] ∧
      HandsOver twoBlock.problem (.ok ()) twoBlock.session twoBlock.solve.2.session) ∧
    (∃ details, floatingBlock.solve.1 = .error (.fault (.unconverged details)) ∧
      HandsOver floatingBlock.problem (.ok ()) floatingBlock.session
        floatingBlock.solve.2.session) ∧
    stubbornBlock.solve.1 = .error (.fault (.modelFatal .writeBack "kept")) ∧
      ∃ failure : EvalFailure, failure.reason = "kept" ∧
        HandsOver stubbornBlock.problem (.error failure) stubbornBlock.session
          stubbornBlock.solve.2.session := by
  have hsolved : twoBlock.solve.1.toOption.any (fun _ => true) = true := by decide +kernel
  have hfailed : (unconverged? floatingBlock.solve.1).any (fun _ => true) = true := by
    decide +kernel
  have hrefused : stubbornBlock.solve.1 = .error (.fault (.modelFatal .writeBack "kept")) :=
    eq_error_of_haltOf? (by decide +kernel)
  obtain ⟨report, hreport, _⟩ := exists_of_toOption_any hsolved
  obtain ⟨details, hdetails, _⟩ := exists_of_unconverged? hfailed
  refine ⟨⟨report, hreport, by decide +kernel, ?_⟩, ⟨details, hdetails, ?_⟩, hrefused, ?_⟩
  · exact (solve_hands_over twoBlock).1 report hreport
  · exact (solve_hands_over floatingBlock).2.1 details hdetails
  · exact (solve_hands_over stubbornBlock).2.2.1 "kept" hrefused

end AlgebraicLoop
