import AlgebraicLoop.Block

/-!
# Reasoning about actions

An action started in a session either returns a value or halts, and leaves a session in both cases.

* `bind_eq_ok`: what a sequence of two actions came to, taken apart;
* `After`: both ends of an action at once;
* `Follows`: a relation between the session before an action and the one it leaves;
* `Block.perform_ends`: an operation on a block, by the ends of its action.
-/

namespace AlgebraicLoop
set_option autoImplicit false

section
variable {α σ : Type} {n : Nat} {β γ : Type}

/-! ## Sequences -/

theorem bind_apply (a : Action α σ n β) (f : β → Action α σ n γ) (s : Session α σ n) :
    (a >>= f) s = match a s with
      | .ok v t => f v t
      | .error halt t => .error halt t := by
  change EStateM.bind a f s = _
  unfold EStateM.bind
  cases a s <;> rfl

theorem bind_ok {a : Action α σ n β} {f : β → Action α σ n γ} {s t : Session α σ n} {v : β}
    (h : a s = .ok v t) : (a >>= f) s = f v t := by
  rw [bind_apply, h]

theorem bind_error {a : Action α σ n β} {f : β → Action α σ n γ} {s t : Session α σ n}
    {halt : Halt α} (h : a s = .error halt t) : (a >>= f) s = .error halt t := by
  rw [bind_apply, h]

theorem bind_eq_ok {a : Action α σ n β} {f : β → Action α σ n γ} {s u : Session α σ n} {w : γ} :
    (a >>= f) s = .ok w u ↔ ∃ v t, a s = .ok v t ∧ f v t = .ok w u := by
  rw [bind_apply]
  constructor
  · intro h
    cases ha : a s with
    | ok v t => rw [ha] at h; exact ⟨v, t, rfl, h⟩
    | error halt t => rw [ha] at h; cases h
  · rintro ⟨v, t, ha, hf⟩
    rw [ha]
    exact hf

@[simp] theorem pure_apply (v : β) (s : Session α σ n) :
    (pure v : Action α σ n β) s = .ok v s := rfl

@[simp] theorem get_apply (s : Session α σ n) :
    (get : Action α σ n (Session α σ n)) s = .ok s s := rfl

@[simp] theorem modify_apply (g : Session α σ n → Session α σ n) (s : Session α σ n) :
    (modify g : Action α σ n Unit) s = .ok () (g s) := rfl

@[simp] theorem throw_apply (halt : Halt α) (s : Session α σ n) :
    (throw halt : Action α σ n β) s = .error halt s := rfl

@[simp] theorem fail_apply (fault : Fault α) (s : Session α σ n) :
    (fail fault : Action α σ n β) s = .error (.fault fault) s := rfl

@[simp] theorem get_bind_apply (f : Session α σ n → Action α σ n γ) (s : Session α σ n) :
    ((get : Action α σ n (Session α σ n)) >>= f) s = f s s := rfl

@[simp] theorem modify_bind_apply (g : Session α σ n → Session α σ n)
    (f : Unit → Action α σ n γ) (s : Session α σ n) :
    ((modify g : Action α σ n Unit) >>= f) s = f () (g s) := rfl

@[simp] theorem modifyWork_bind_apply (g : Workspace α n → Workspace α n)
    (f : Unit → Action α σ n γ) (s : Session α σ n) :
    ((modifyWork g : Action α σ n Unit) >>= f) s = f () { s with work := g s.work } := rfl

@[simp] theorem notify_bind_apply (notice : Notice α) (f : Unit → Action α σ n γ)
    (s : Session α σ n) :
    ((notify notice : Action α σ n Unit) >>= f) s =
      f () { s with notices := s.notices.push notice } := rfl

@[simp] theorem pure_bind_apply (v : β) (f : β → Action α σ n γ) (s : Session α σ n) :
    ((pure v : Action α σ n β) >>= f) s = f v s := rfl

@[simp] theorem fail_bind_apply (fault : Fault α) (f : β → Action α σ n γ)
    (s : Session α σ n) :
    ((fail fault : Action α σ n β) >>= f) s = .error (.fault fault) s := rfl

/-! ## Both ends of an action -/

/-- The action started in `s` returns a value with a session that satisfy `Q`, or halts in a way
and a session that satisfy `H`. -/
def After (a : Action α σ n β) (s : Session α σ n) (Q : β → Session α σ n → Prop)
    (H : Halt α → Session α σ n → Prop) : Prop :=
  match a s with
  | .ok v t => Q v t
  | .error halt t => H halt t

theorem after_bind {a : Action α σ n β} {f : β → Action α σ n γ} {s : Session α σ n}
    {Q : γ → Session α σ n → Prop} {H : Halt α → Session α σ n → Prop} :
    After (a >>= f) s Q H ↔ After a s (fun v t => After (f v) t Q H) H := by
  unfold After
  rw [bind_apply]
  cases a s <;> rfl

/-- Only the result counts, not how it was come by. -/
theorem after_congr {a b : Action α σ n β} {s t : Session α σ n}
    {Q : β → Session α σ n → Prop} {H : Halt α → Session α σ n → Prop} (h : a s = b t) :
    After a s Q H ↔ After b t Q H := by
  unfold After
  rw [h]

theorem After.intro {a : Action α σ n β} {s : Session α σ n} {Q : β → Session α σ n → Prop}
    {H : Halt α → Session α σ n → Prop} (hQ : ∀ v t, a s = .ok v t → Q v t)
    (hH : ∀ halt t, a s = .error halt t → H halt t) : After a s Q H := by
  unfold After
  split
  · next ha => exact hQ _ _ ha
  · next ha => exact hH _ _ ha

theorem After.mono {a : Action α σ n β} {s : Session α σ n} {Q Q' : β → Session α σ n → Prop}
    {H H' : Halt α → Session α σ n → Prop} (h : After a s Q H)
    (hQ : ∀ v t, a s = .ok v t → Q v t → Q' v t)
    (hH : ∀ halt t, a s = .error halt t → H halt t → H' halt t) : After a s Q' H' := by
  unfold After at h ⊢
  cases ha : a s with
  | ok v t => rw [ha] at h; exact hQ v t ha h
  | error halt t => rw [ha] at h; exact hH halt t ha h

theorem After.bind {a : Action α σ n β} {f : β → Action α σ n γ} {s : Session α σ n}
    {R : β → Session α σ n → Prop} {Q : γ → Session α σ n → Prop}
    {H : Halt α → Session α σ n → Prop} (h : After a s R H)
    (hf : ∀ v t, R v t → After (f v) t Q H) : After (a >>= f) s Q H :=
  after_bind.2 (h.mono (fun v t _ hv => hf v t hv) fun _ _ _ hh => hh)

theorem After.ok {a : Action α σ n β} {s t : Session α σ n} {Q : β → Session α σ n → Prop}
    {H : Halt α → Session α σ n → Prop} {v : β} (h : After a s Q H) (ha : a s = .ok v t) :
    Q v t := by
  unfold After at h
  rwa [ha] at h

theorem After.error {a : Action α σ n β} {s t : Session α σ n}
    {Q : β → Session α σ n → Prop} {H : Halt α → Session α σ n → Prop} {halt : Halt α}
    (h : After a s Q H) (ha : a s = .error halt t) : H halt t := by
  unfold After at h
  rwa [ha] at h

/-- What does not halt comes to a result. -/
theorem After.exists_ok {a : Action α σ n β} {s : Session α σ n} {Q : β → Session α σ n → Prop}
    (h : After a s Q fun _ _ => False) : ∃ v t, a s = .ok v t ∧ Q v t := by
  cases ha : a s with
  | ok v t => exact ⟨v, t, rfl, h.ok ha⟩
  | error halt t => exact (h.error ha).elim

/-! ## Relations between the sessions before and after -/

/-- The session that an action leaves stands in the relation `R` to the one it started in, however
the action ends. -/
def Follows (R : Session α σ n → Session α σ n → Prop) (a : Action α σ n β) : Prop :=
  ∀ s, After a s (fun _ t => R s t) fun _ t => R s t

theorem Follows.ok {R : Session α σ n → Session α σ n → Prop} {a : Action α σ n β}
    {s t : Session α σ n} {v : β} (h : Follows R a) (ha : a s = .ok v t) : R s t := (h s).ok ha

theorem Follows.error {R : Session α σ n → Session α σ n → Prop} {a : Action α σ n β}
    {s t : Session α σ n} {halt : Halt α} (h : Follows R a) (ha : a s = .error halt t) : R s t :=
  (h s).error ha

theorem Follows.bind {R : Session α σ n → Session α σ n → Prop}
    (trans : ∀ s t u, R s t → R t u → R s u) {a : Action α σ n β} {f : β → Action α σ n γ}
    (ha : Follows R a) (hf : ∀ v, Follows R (f v)) : Follows R (a >>= f) := by
  intro s
  rw [after_bind]
  refine (ha s).mono (fun v t _ hst => ?_) (fun _ _ _ hst => hst)
  exact (hf v t).mono (fun _ u _ htu => trans s t u hst htu) fun _ u _ htu => trans s t u hst htu

/-! ## What is done in any case -/

variable {a : Action α σ n β} {g : Session α σ n → Session α σ n} {s t : Session α σ n}

theorem thenAlways_ok {v : β} (h : a s = .ok v t) : thenAlways a g s = .ok v (g t) := by
  unfold thenAlways
  rw [h]

theorem thenAlways_error {halt : Halt α} (h : a s = .error halt t) :
    thenAlways a g s = .error halt (g t) := by
  unfold thenAlways
  rw [h]

theorem after_thenAlways {Q : β → Session α σ n → Prop} {H : Halt α → Session α σ n → Prop} :
    After (thenAlways a g) s Q H ↔ After a s (fun v t => Q v (g t)) fun halt t => H halt (g t) := by
  unfold After thenAlways
  cases a s <;> rfl

/-! ## Operations on blocks -/

variable {b : Block α σ n} {action : Problem α σ n → Action α σ n β}

/-- A new block has unknowns and has not been used yet. -/
theorem Block.create_eq_ok [Scalar α] {label : String} {model : Model α σ n} {state : σ}
    {options : Options α} {auxiliaryCount : Nat} {variability : Variability}
    (h : Block.create label model state options auxiliaryCount variability = .ok b) :
    n ≠ 0 ∧ b = ⟨⟨label, options, model, auxiliaryCount, variability⟩, Session.fresh n state⟩ := by
  unfold Block.create at h
  split at h
  · cases h
  · next hn =>
    cases h
    exact ⟨hn, rfl⟩

theorem Block.perform_ok {v : β} (h : action b.problem b.session = .ok v t) :
    b.perform action = (.ok v, { b with session := t }) := by
  unfold Block.perform
  rw [h]

theorem Block.perform_error {halt : Halt α} (h : action b.problem b.session = .error halt t) :
    b.perform action = (.error halt, { b with session := t }) := by
  unfold Block.perform
  rw [h]

theorem Block.perform_problem (b : Block α σ n) (action : Problem α σ n → Action α σ n β) :
    (b.perform action).2.problem = b.problem := by
  unfold Block.perform
  split
  · rfl
  · rfl

/-- An operation on a block comes to what its action comes to. -/
theorem Block.perform_ends {Q : Except (Halt α) β → Session α σ n → Prop}
    (h : After (action b.problem) b.session (fun v => Q (.ok v)) fun halt => Q (.error halt)) :
    Q (b.perform action).1 (b.perform action).2.session := by
  cases hrun : action b.problem b.session with
  | ok v t =>
    rw [Block.perform_ok hrun]
    exact h.ok hrun
  | error halt t =>
    rw [Block.perform_error hrun]
    exact h.error hrun

theorem Block.perform_after {Q : Session α σ n → Prop}
    (h : After (action b.problem) b.session (fun _ => Q) fun _ => Q) :
    Q (b.perform action).2.session := Block.perform_ends (Q := fun _ => Q) h

theorem Block.perform_session {R : Session α σ n → Session α σ n → Prop}
    (h : Follows R (action b.problem)) : R b.session (b.perform action).2.session :=
  Block.perform_after (h b.session)

end

end AlgebraicLoop
