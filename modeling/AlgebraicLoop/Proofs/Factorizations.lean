import AlgebraicLoop.Proofs.Actions

/-!
# What a factorization leaves

A factorization of the Jacobian changes the workspace and leaves notices. What it makes of the
workspace is a function of the workspace, and everything it keeps is read off from that function.

* `standIn`: what takes the place of the factors of a singular Jacobian;
* `factorize_cases`: a factorization has the factors of the Jacobian, or puts a stand-in there;
* `directFactors`, `factorDirect_run`: the factorization of the direct method.
-/

namespace AlgebraicLoop
set_option autoImplicit false

section
variable {α σ : Type} [Scalar α] {n : Nat} {s : Session α σ n}

/-! ## Stand-ins -/

/-- The pseudoinverse, if there is one. -/
def leastNormFactors (J : Mat α n n) : Factorization α n :=
  match LeastNorm.factor J with
  | .ok f => .minimumNorm f
  | .error _ => .none

/-- What takes the place of the factors of a Jacobian, and the remedy that was used in the end. -/
structure StandIn (α : Type) (n : Nat) where
  factorization : Factorization α n
  recovery : RecoveryMode

/-- What stands in for the factors of the Jacobian, when a remedy is asked for. -/
def standIn (mode : RecoveryMode) (w : Workspace α n) : StandIn α n :=
  if n = 1 then ⟨.scalar, mode⟩
  else if mode = .regularization then
    match LU.factor (regularizedNormal w) with
    | .ok lu => ⟨.regularized lu, .regularization⟩
    | .error _ => ⟨leastNormFactors w.jacobian, .minimumNorm⟩
  else ⟨leastNormFactors w.jacobian, mode⟩

theorem leastNormFactors_cases (J : Mat α n n) :
    (∃ f, LeastNorm.factor J = .ok f ∧ leastNormFactors J = .minimumNorm f) ∨
      leastNormFactors J = .none ∧ ∃ refusal, LeastNorm.factor J = .error refusal := by
  unfold leastNormFactors
  cases LeastNorm.factor J with
  | ok f => exact .inl ⟨f, rfl, rfl⟩
  | error refusal => exact .inr ⟨rfl, refusal, rfl⟩

theorem standIn_alone (hn : n = 1) (mode : RecoveryMode) (w : Workspace α n) :
    (standIn mode w).factorization = .scalar := by
  unfold standIn
  rw [if_pos hn]

/-- A stand-in is made by one of the two remedies, or there is none; only a single unknown needs
neither. -/
theorem standIn_cases (hn : n ≠ 1) (mode : RecoveryMode) (w : Workspace α n) :
    (∃ lu, LU.factor (regularizedNormal w) = .ok lu ∧
      standIn mode w = ⟨.regularized lu, .regularization⟩) ∨
      standIn mode w = ⟨leastNormFactors w.jacobian, .minimumNorm⟩ := by
  unfold standIn
  rw [if_neg hn]
  cases mode with
  | regularization =>
    rw [if_pos rfl]
    cases LU.factor (regularizedNormal w) with
    | ok lu => exact .inl ⟨lu, rfl, rfl⟩
    | error _ => exact .inr rfl
  | minimumNorm => exact .inr rfl

/-- The workspace with a stand-in in place. -/
def Workspace.replaced (w : Workspace α n) (r : StandIn α n) : Workspace α n :=
  { w with factorization := r.factorization, recovery := r.recovery }

theorem factorMinimumNorm_run (s : Session α σ n) :
    ∃ notices, factorMinimumNorm s = .ok (leastNormFactors s.work.jacobian).isPresent
      { s with
        work := s.work.replaced ⟨leastNormFactors s.work.jacobian, s.work.recovery⟩
        notices } := by
  unfold factorMinimumNorm leastNormFactors
  rw [get_bind_apply]
  cases LeastNorm.factor s.work.jacobian with
  | ok f => exact ⟨_, rfl⟩
  | error _ => exact ⟨_, rfl⟩

theorem factorRecovery_run {mode : RecoveryMode} (hmode : s.work.recovery = mode) :
    ∃ notices, factorRecovery mode s = .ok (standIn mode s.work).factorization.isPresent
      { s with work := s.work.replaced (standIn mode s.work), notices } := by
  subst hmode
  unfold factorRecovery standIn
  split
  · exact ⟨_, rfl⟩
  · split
    · next hmode =>
      rw [get_bind_apply]
      cases LU.factor (regularizedNormal s.work) with
      | ok lu =>
        refine ⟨s.notices.push .regularized, ?_⟩
        unfold Workspace.replaced
        rw [← hmode]
        rfl
      | error _ => exact factorMinimumNorm_run _
    · exact factorMinimumNorm_run s

/-- A Jacobian that is treated as singular gets a stand-in, by the remedy that the marks ask for. -/
theorem recoverSingular_run (premarked : Bool) (s : Session α σ n) :
    ∃ mode notices, mode = (if premarked = true ∨ (!s.work.flags.singular) = true then
        RecoveryMode.regularization else RecoveryMode.minimumNorm) ∧
      recoverSingular premarked s = .ok (standIn mode s.work).factorization.isPresent
        { s with
          work := { s.work.replaced (standIn mode s.work) with flags.singular := true }
          notices } := by
  obtain ⟨notices, h⟩ := factorRecovery_run
    (s := { s with
      work := { s.work with
        flags.singular := true
        recovery := if premarked = true ∨ (!s.work.flags.singular) = true then
          RecoveryMode.regularization else RecoveryMode.minimumNorm }
      notices := s.notices.push (.singularJacobian s.work.generation) }) rfl
  exact ⟨_, notices, rfl, h⟩

/-! ## Factors of the Jacobian -/

/-- The remedy that a Jacobian asks for which is treated as singular. -/
def Workspace.remedy (w : Workspace α n) : RecoveryMode :=
  if w.premarkedSingular ∨ !w.flags.singular then .regularization else .minimumNorm

/-- The Jacobian is treated as singular: it was marked beforehand, or it cannot be factored. -/
def Workspace.Refused (w : Workspace α n) : Prop :=
  w.premarkedSingular = true ∨ ∃ refusal, LU.factor w.jacobian = .error refusal

/-- The workspace after its Jacobian was treated as singular. -/
def Workspace.recovered (w : Workspace α n) : Workspace α n :=
  { w.replaced (standIn w.remedy w) with
    factoredGeneration := some w.generation
    premarkedSingular := false
    flags.singular := true }

/-- The workspace with the factors of its Jacobian. -/
def Workspace.withFactors (w : Workspace α n) (lu : LU α n) : Workspace α n :=
  { w with
    factorization := .lu lu
    recovery := .regularization
    factoredGeneration := some w.generation
    premarkedSingular := false
    flags.singular := false }

/-- The session that has noted that its Jacobian is being factored. -/
def Session.factoring (s : Session α σ n) : Session α σ n :=
  { s with work := { s.work with
      factoredGeneration := some s.work.generation, premarkedSingular := false } }

/-- The session with the factors of its Jacobian. -/
def Session.factored (s : Session α σ n) (lu : LU α n) : Session α σ n :=
  { s with work := { s.work with
      factorization := .lu lu, flags.singular := false, recovery := .regularization } }

theorem factorize_apply (s : Session α σ n) :
    factorize s =
      if s.work.premarkedSingular then recoverSingular true s.factoring
      else match LU.factor s.work.jacobian with
        | .ok lu => .ok true (s.factoring.factored lu)
        | .error _ => recoverSingular false s.factoring := by
  unfold factorize
  rw [get_bind_apply]
  dsimp only
  rw [modifyWork_bind_apply]
  split
  · rfl
  · cases LU.factor s.work.jacobian <;> rfl

/-- A factorization has the factors of the Jacobian or puts a stand-in in their place. -/
theorem factorize_cases (s : Session α σ n) :
    (s.work.premarkedSingular = false ∧ ∃ lu, LU.factor s.work.jacobian = .ok lu ∧
      factorize s = .ok true { s with work := s.work.withFactors lu }) ∨
    s.work.Refused ∧ ∃ notices,
      factorize s = .ok (standIn s.work.remedy s.work).factorization.isPresent
        { s with work := s.work.recovered, notices } := by
  have recovered : ∀ premarked, s.work.premarkedSingular = premarked → ∃ notices,
      recoverSingular premarked s.factoring =
        .ok (standIn s.work.remedy s.work).factorization.isPresent
          { s with work := s.work.recovered, notices } := by
    rintro _ rfl
    obtain ⟨_, notices, rfl, h⟩ := recoverSingular_run s.work.premarkedSingular s.factoring
    exact ⟨notices, h⟩
  rw [factorize_apply]
  cases hmarked : s.work.premarkedSingular with
  | true => exact .inr ⟨.inl hmarked, recovered true hmarked⟩
  | false =>
    cases hfactor : LU.factor s.work.jacobian with
    | ok lu => exact .inl ⟨rfl, lu, rfl, rfl⟩
    | error refusal => exact .inr ⟨.inr ⟨refusal, hfactor⟩, recovered false hmarked⟩

/-! ## The direct method -/

/-- The factorization that the direct method makes of a Jacobian. -/
def directFactors (J : Mat α n n) : Factorization α n :=
  match LU.factor J with
  | .ok lu => .lu lu
  | .error _ =>
    match LeastNorm.factor J with
    | .ok f => .minimumNorm f
    | .error _ => .none

theorem directFactors_of_error {J : Mat α n n} {refusal : Refusal α}
    (h : LU.factor J = .error refusal) : directFactors J = leastNormFactors J := by
  unfold directFactors leastNormFactors
  rw [h]

theorem factorDirect_run (s : Session α σ n) :
    ∃ singular notices, factorDirect s = .ok (directFactors s.work.jacobian).isPresent
      { s with
        work := { s.work with
          factorization := directFactors s.work.jacobian
          factoredGeneration := some s.work.generation
          flags.singular := singular }
        notices } := by
  unfold factorDirect
  rw [get_bind_apply, modifyWork_bind_apply]
  cases hfactor : LU.factor s.work.jacobian with
  | ok lu =>
    unfold directFactors
    rw [hfactor]
    exact ⟨_, _, rfl⟩
  | error _ =>
    rw [directFactors_of_error hfactor]
    unfold leastNormFactors
    dsimp only
    rw [modifyWork_bind_apply, notify_bind_apply]
    cases LeastNorm.factor s.work.jacobian with
    | ok f => exact ⟨_, _, rfl⟩
    | error _ => exact ⟨_, _, rfl⟩

end

end AlgebraicLoop
