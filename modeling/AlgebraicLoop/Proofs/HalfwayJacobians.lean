import AlgebraicLoop.Proofs.FactorsInUse
import AlgebraicLoop.Proofs.GroupedDifferences

/-!
# Jacobians that were cut short

An evaluation puts its columns into the matrix in place. One that comes to its end has written all of
them. One that fails takes the marks off the matrix; one that a fatal answer cuts short does not.

* `Problem.Overwrites`, `sourceJacobian_storing`: a complete evaluation leaves nothing of the matrix
  that it found, unless the model, asked for its own Jacobian, keeps some of it;
* `Entire`, `Halfway`: where the matrix of a block can come from;
* `Halfway.of_written`: what the model had written when it failed for good;
* `Lived.accountable`: the matrix and the factorization that a block may use come from there.
-/

namespace AlgebraicLoop
set_option autoImplicit false

section
variable {α σ : Type} [Scalar α] {n : Nat} {P : Problem α σ n} {o s t u : Session α σ n}

/-! ## Complete evaluations -/

omit [Scalar α] in
theorem unread_request {β : Type} (request : Answer σ β) (kind : Request)
    (record : Except EvalFailure β → Call α n) :
    Unread (ask request record >>= settleAnswer kind : Action α σ n (Except Mishap β)) := by
  intro s A
  rw [ask_bind_apply, ask_bind_apply]
  have hmodel : (s.storing A).model = s.model := rfl
  rw [hmodel]
  cases (request s.model).1 with
  | ok v => rfl
  | error failure => cases failure <;> rfl

theorem unread_probeSide (P : Problem α σ n) (x f : Vector α n) (j : Fin n)
    (room target width : α) : Unread (probeSide P x f j room target width) := by
  unfold probeSide
  split
  · refine (unread_evaluate P _).bind fun answer => ?_
    cases answer <;> exact fun _ _ => rfl
  · exact fun _ _ => rfl

theorem unread_twoSidedColumn (P : Problem α σ n) (scale x f : Vector α n) (j : Fin n) :
    Unread (twoSidedColumn P scale x f j) := by
  intro s A
  unfold twoSidedColumn
  rw [get_bind_apply, get_bind_apply]
  refine Unread.bind (unread_probeSide P x f j _ _ _) (fun (widthRight, right) => ?_) s A
  refine (unread_probeSide P x f j _ _ _).bind fun (widthLeft, left) => ?_
  dsimp only
  split <;> exact fun _ _ => rfl

omit [Scalar α] in
/-- Columns that do not read the matrix in place fill every entry anew. -/
theorem fillColumns_overwrites {column : Fin n → Action α σ n (Except Mishap (Vector α n))}
    (hcolumn : ∀ j, Unread (column j)) {A B : Mat α n n}
    (h : fillColumns column storeJacobian (List.finRange n) A s = .ok (.ok B) t) (A' C : Mat α n n) :
    ∃ u, fillColumns column storeJacobian (List.finRange n) A' (s.storing C) = .ok (.ok B) u := by
  obtain ⟨B', u, hu, hB⟩ := fillColumns_storing hcolumn h A' C
  have hsame : B' = B := by
    ext i hi k hk
    exact hB ⟨i, hi⟩ ⟨k, hk⟩ (.inl (List.mem_finRange _))
  exact ⟨u, hsame ▸ hu⟩

theorem differences_overwrites {scale x f : Vector α n} {twoSided : Fin n → Bool} {A B : Mat α n n}
    (h : differences P scale twoSided x f storeJacobian A s = .ok (.ok B) t) (A' C : Mat α n n) :
    ∃ u, differences P scale twoSided x f storeJacobian A' (s.storing C) = .ok (.ok B) u := by
  refine fillColumns_overwrites (fun j => ?_) h A' C
  split
  · exact unread_twoSidedColumn P scale x f j
  · exact unread_oneSidedColumn P scale x f j

/-- Two ways to fill matrices came to the same end. The matrices are the same in the columns that were
filled, and where they were the same before. -/
def SameFilling (filled : List (Fin n)) (A A' : Mat α n n) :
    Except Mishap (Mat α n n) → Except Mishap (Mat α n n) → Prop
  | .error mishap, .error mishap' => mishap' = mishap
  | .ok B, .ok B' => ∀ i k : Fin n, k ∈ filled ∨ A'[i][k] = A[i][k] → B'[i][k] = B[i][k]
  | _, _ => False

/-- The groups come to the same end whatever matrix is in place. -/
theorem compressedDifferences_storing {scale x f : Vector α n} {p : Pattern n n}
    {groups : List (List (Fin n))} {A : Mat α n n} {answer : Except Mishap (Mat α n n)}
    (h : compressedDifferences P scale p x f storeJacobian groups A s = .ok answer t)
    (A' C : Mat α n n) :
    ∃ answer' D,
      compressedDifferences P scale p x f storeJacobian groups A' (s.storing C) =
        .ok answer' (t.storing D) ∧ SameFilling groups.flatten A A' answer answer' := by
  induction groups generalizing A A' C s with
  | nil =>
    cases h
    exact ⟨.ok A', C, rfl, fun i k hk => hk.elim (fun h => absurd h List.not_mem_nil) id⟩
  | cons group rest ih =>
    unfold compressedDifferences at h ⊢
    rw [get_bind_apply] at h ⊢
    have hpoint : groupPoint P (s.storing C) scale x group = groupPoint P s scale x group := rfl
    rw [hpoint]
    obtain ⟨residual, u, hu, h⟩ := bind_eq_ok.1 h
    have hu' : evaluate P (groupPoint P s scale x group) (s.storing C) =
        .ok residual (u.storing C) := by
      rw [unread_evaluate P _ s C, hu]
    rw [bind_ok hu']
    cases residual with
    | error mishap =>
      cases h
      exact ⟨.error mishap, C, rfl, rfl⟩
    | ok g =>
      let column := groupColumn p x f (groupPoint P s scale x group) g
      let B := group.foldl (fun A j => A.setColumn j (column j)) A
      let B' := group.foldl (fun A j => A.setColumn j (column j)) A'
      obtain ⟨answer', D, hv, hanswer⟩ := ih (s := u.storing B) h B' B'
      refine ⟨answer', D, hv, ?_⟩
      cases answer with
      | error mishap =>
        cases answer' with
        | error mishap' => exact hanswer
        | ok J' => exact hanswer.elim
      | ok J =>
        cases answer' with
        | error mishap => exact hanswer.elim
        | ok J' =>
          intro i k hk
          refine hanswer i k ?_
          by_cases hrest : k ∈ rest.flatten
          · exact .inl hrest
          · refine .inr ?_
            have hB : ∀ M : Mat α n n, (group.foldl (fun A j => A.setColumn j (column j)) M)[i][k] =
                if k ∈ group then (column k)[i] else M[i][k] := fun M =>
              Mat.setColumns_entry column group M i k
            rw [hB, hB]
            by_cases hkg : k ∈ group
            · rw [if_pos hkg, if_pos hkg]
            · rw [if_neg hkg, if_neg hkg]
              refine hk.resolve_left fun hmem => ?_
              exact (List.mem_append.1 hmem).elim hkg hrest

theorem groupedJacobian_storing {p : Pattern n n} {x f : Vector α n} {A : Mat α n n}
    (h : groupedJacobian P p x f s = .ok (.ok A) t) (C : Mat α n n) :
    ∃ u, groupedJacobian P p x f (s.storing C) = .ok (.ok A) u := by
  unfold groupedJacobian at h ⊢
  rw [get_bind_apply] at h ⊢
  obtain ⟨answer, u, hu, h⟩ := bind_eq_ok.1 h
  obtain ⟨answer', D, hu', hanswer⟩ := compressedDifferences_storing hu C C
  rw [show (s.storing C).work.variableScale = s.work.variableScale from rfl,
    show (s.storing C).work.jacobian = C from rfl, bind_ok hu']
  cases answer with
  | ok B =>
    cases h
    cases answer' with
    | error mishap => exact hanswer.elim
    | ok B' =>
      have hsame : B' = A := by
        ext i hi k hk
        exact hanswer ⟨i, hi⟩ ⟨k, hk⟩ (.inl (mem_firstFit.2 (List.mem_finRange _)))
      exact ⟨_, by rw [hsame]; rfl⟩
  | error mishap =>
    cases answer' with
    | ok B' => exact hanswer.elim
    | error mishap' =>
      cases hanswer
      exact differences_overwrites (s := u.grieved mishap) h D D

/-- The model's own Jacobian, where that is asked for, does not depend on the matrix that the model is
handed to write it into. -/
def Problem.Overwrites (P : Problem α σ n) : Prop :=
  P.options.jacobianSource = .analytic → ∀ jacobian, P.model.jacobian = some jacobian →
    ∀ (x : Vector α n) (m : σ) (A B J : Mat α n n),
      ((jacobian x m).answer A).1 = .ok J → ((jacobian x m).answer B).1 = .ok J

theorem exactJacobian_storing (hP : P.Overwrites) {x : Vector α n} {A : Mat α n n}
    {action : Action α σ n (Except Mishap (Mat α n n))} (h : exactJacobian? P x A = some action)
    (C : Mat α n n) :
    ∃ action', exactJacobian? P x C = some action' ∧
      ∀ {s t : Session α σ n} {J : Mat α n n}, action s = .ok (.ok J) t →
        ∀ D, ∃ u, action' (s.storing D) = .ok (.ok J) u := by
  unfold exactJacobian? at h ⊢
  split at h
  · next hanalytic =>
    obtain ⟨jacobian, hjacobian, rfl⟩ := Option.map_eq_some_iff.1 h
    rw [if_pos hanalytic, hjacobian]
    refine ⟨analyticJacobian jacobian x, rfl, fun {s t J} hrun D => ?_⟩
    rw [analyticJacobian_apply] at hrun
    cases hanswer : ((jacobian x s.model).answer s.work.jacobian).1 with
    | error failure =>
      rw [hanswer] at hrun
      cases failure <;> cases hrun
    | ok B =>
      rw [hanswer] at hrun
      cases hrun
      have hagain : ((jacobian x (s.storing D).model).answer (s.storing D).work.jacobian).1 = .ok J :=
        hP hanalytic jacobian hjacobian x s.model s.work.jacobian D J hanswer
      rw [analyticJacobian_apply, hagain]
      exact ⟨_, rfl⟩
  · next hanalytic =>
    obtain ⟨derivative, hderivative, rfl⟩ := Option.map_eq_some_iff.1 h
    rw [if_neg hanalytic, hderivative]
    exact ⟨directionalJacobian derivative x C, rfl, fun hrun D =>
      fillColumns_overwrites (fun j => unread_request _ _ _) hrun C D⟩

/-- A complete evaluation leaves nothing of the matrix that it found, if the model leaves nothing. -/
theorem sourceJacobian_storing (hP : P.Overwrites) {x f : Vector α n} {A : Mat α n n} {exact : Bool}
    (h : sourceJacobian P x f s = .ok (.ok A, exact) t) (C : Mat α n n) :
    ∃ u, sourceJacobian P x f (s.storing C) = .ok (.ok A, exact) u := by
  have paired : ∀ {a b : Action α σ n (Except Mishap (Mat α n n))} {m : Bool},
      (∀ {v}, a s = .ok (.ok A) v → ∃ u, b (s.storing C) = .ok (.ok A) u) →
      (a >>= fun status => pure (status, m)) s = .ok (.ok A, exact) t →
        ∃ u, (b >>= fun status => pure (status, m)) (s.storing C) = .ok (.ok A, exact) u := by
    intro a b m hab h
    obtain ⟨status, v, hv, h⟩ := bind_eq_ok.1 h
    cases h
    obtain ⟨u, hu⟩ := hab hv
    exact ⟨u, bind_ok hu⟩
  unfold sourceJacobian at h ⊢
  rw [get_bind_apply] at h ⊢
  have hw : (s.storing C).work.jacobian = C := rfl
  rw [hw]
  cases hexact : exactJacobian? P x s.work.jacobian with
  | some action =>
    obtain ⟨action', haction', hsame⟩ := exactJacobian_storing hP hexact C
    rw [hexact] at h
    rw [haction']
    exact paired (fun hv => hsame hv C) h
  | none =>
    have hnone : exactJacobian? P x C = none := by
      unfold exactJacobian? at hexact ⊢
      split at hexact
      · next hanalytic =>
        rw [if_pos hanalytic]
        simpa using hexact
      · next hanalytic =>
        rw [if_neg hanalytic]
        simpa using hexact
    rw [hexact] at h
    rw [hnone, show (s.storing C).work.pattern = s.work.pattern from rfl]
    cases hpattern : s.work.pattern with
    | some p =>
      rw [hpattern] at h
      exact paired (fun hv => groupedJacobian_storing hv C) h
    | none =>
      rw [hpattern] at h
      exact paired (fun hv => differences_overwrites hv C C) h

/-! ## Where a matrix can come from -/

/-- The matrix is what an evaluation in the session comes to; whatever matrix is in place, unless the
model keeps some of it. -/
def Complete (P : Problem α σ n) (x f : Vector α n) (s : Session α σ n) (J : Mat α n n) : Prop :=
  (∃ exact u, sourceJacobian P x f s = .ok (.ok J, exact) u) ∧
    (P.Overwrites → ∀ C : Mat α n n, ∃ exact u,
      sourceJacobian P x f (s.storing C) = .ok (.ok J, exact) u)

theorem Sourced.complete {x f : Vector α n} (h : Sourced P x f s t) :
    Complete P x f s t.work.jacobian := by
  obtain ⟨exact, w, hw, _⟩ := h
  refine ⟨⟨exact, w, hw⟩, fun hP C => ?_⟩
  obtain ⟨u, hu⟩ := sourceJacobian_storing hP hw C
  exact ⟨exact, u, hu⟩

/-- The second matrix was made from the first one by secant updates. -/
inductive Descends (P : Problem α σ n) (J : Mat α n n) : Mat α n n → Prop
  | refl : Descends P J J
  | updated {w : Workspace α n} {f : Vector α n} {K : Mat α n n} :
      Descends P J w.jacobian → secantUpdate? P.options.jacobianUpdate w f = some K → Descends P J K

/-- The matrix comes from a complete evaluation, by secant updates alone. -/
def Entire (P : Problem α σ n) (t : Session α σ n) (J : Mat α n n) : Prop :=
  ∃ x f s y, Complete P x f s y.work.jacobian ∧ Trail s y ∧ Trail y t ∧
    Descends P y.work.jacobian J

/-- The matrix comes, by secant updates, from one that was partly overwritten when a fatal answer cut
an evaluation short, and that was and is marked as one that can be used. -/
def Halfway (P : Problem α σ n) (t : Session α σ n) (J : Mat α n n) : Prop :=
  ∃ x f halt s y, s.work.flags.jacobianCurrent = true ∧ s.work.flags.forceNewJacobian = false ∧
    evaluateJacobian P x f s = .error halt y ∧ y.marks = s.marks ∧
    y.work.jacobian ≠ s.work.jacobian ∧ Trail y t ∧ Descends P y.work.jacobian J

/-- The matrix comes from an evaluation, complete or not. -/
def Traced (P : Problem α σ n) (t : Session α σ n) (J : Mat α n n) : Prop :=
  Entire P t J ∨ Halfway P t J

/-- The matrix of a model that failed for good while it wrote its Jacobian is such a matrix. -/
theorem Halfway.of_written {jacobian : Vector α n → σ → Writing α σ n} {x : Vector α n}
    {reason : String} (hsource : P.options.jacobianSource = .analytic)
    (hjacobian : P.model.jacobian = some jacobian)
    (hfatal : ((jacobian x s.model).answer s.work.jacobian).1 = .error (.fatal reason))
    (hcurrent : s.work.flags.jacobianCurrent = true)
    (hforced : s.work.flags.forceNewJacobian = false)
    (hchanged : (jacobian x s.model).left s.work.jacobian ≠ s.work.jacobian) (f : Vector α n) :
    Halfway P (s.written jacobian x) ((jacobian x s.model).left s.work.jacobian) := by
  have hexact : exactJacobian? P x s.work.jacobian = some (analyticJacobian jacobian x) := by
    unfold exactJacobian?
    rw [if_pos hsource, hjacobian]
    rfl
  have hwrites : analyticJacobian jacobian x s =
      .error (.fault (.modelFatal .differentiate reason)) (s.written jacobian x) := by
    rw [analyticJacobian_apply, hfatal]
    rfl
  have hrun : evaluateJacobian P x f s =
      .error (.fault (.modelFatal .differentiate reason)) (s.written jacobian x) := by
    unfold evaluateJacobian sourceJacobian
    refine bind_error ?_
    rw [get_bind_apply, hexact]
    exact bind_error hwrites
  exact ⟨x, f, _, s, _, hcurrent, hforced, hrun, rfl, hchanged, Course.refl _ _, .refl⟩

/-- A property of matrices that complete evaluations give, secant updates keep and time does not
change. -/
structure Origin (P : Problem α σ n) (T : Session α σ n → Mat α n n → Prop) : Prop where
  later : ∀ {s t : Session α σ n} {J : Mat α n n}, T s J → Trail s t → T t J
  updated : ∀ {s : Session α σ n} {w : Workspace α n} {f : Vector α n} {K : Mat α n n},
    T s w.jacobian → secantUpdate? P.options.jacobianUpdate w f = some K → T s K
  sourced : ∀ {s t : Session α σ n} {x f : Vector α n},
    Sourced P x f s t → Trail s t → T t t.work.jacobian

theorem Entire.origin (P : Problem α σ n) : Origin P (Entire P) where
  later := by
    rintro s t J ⟨x, f, r, y, hcomplete, hry, hys, hdescends⟩ hst
    exact ⟨x, f, r, y, hcomplete, hry, hys.trans hst, hdescends⟩
  updated := by
    rintro s w f K ⟨x, g, r, y, hcomplete, hry, hys, hdescends⟩ hK
    exact ⟨x, g, r, y, hcomplete, hry, hys, hdescends.updated hK⟩
  sourced := by
    rintro s t x f hsource hst
    exact ⟨x, f, s, t, hsource.complete, hst, Course.refl _ t, .refl⟩

theorem Traced.origin (P : Problem α σ n) : Origin P (Traced P) where
  later := by
    rintro s t J (h | h) hst
    · exact .inl ((Entire.origin P).later h hst)
    · obtain ⟨x, f, halt, r, y, hcurrent, hforced, hrun, hmarks, hchanged, hys, hdescends⟩ := h
      exact .inr ⟨x, f, halt, r, y, hcurrent, hforced, hrun, hmarks, hchanged, hys.trans hst,
        hdescends⟩
  updated := by
    rintro s w f K (h | h) hK
    · exact .inl ((Entire.origin P).updated h hK)
    · obtain ⟨x, g, halt, r, y, hcurrent, hforced, hrun, hmarks, hchanged, hys, hdescends⟩ := h
      exact .inr ⟨x, g, halt, r, y, hcurrent, hforced, hrun, hmarks, hchanged, hys,
        hdescends.updated hK⟩
  sourced hsource hst := .inl ((Entire.origin P).sourced hsource hst)

/-! ## What an evaluation leaves -/

/-- What an evaluation that does not succeed leaves is the matrix that it found, one that is marked as
useless, or a complete one; else a fatal answer cut it short, and the marks on the matrix that it
found were those of one that can be used. -/
theorem evaluateJacobian_leaves (P : Problem α σ n) (x f : Vector α n) (s : Session α σ n) :
    After (evaluateJacobian P x f) s
      (fun answer t => ∀ mishap, answer = .error mishap → t.work.flags.jacobianCurrent = false)
      fun _ t => t.work.jacobian = s.work.jacobian ∨ t.work.flags.jacobianCurrent = false ∨
        t.work.flags.forceNewJacobian = true ∨ Complete P x f s t.work.jacobian ∨
        (s.work.flags.jacobianCurrent = true ∧ s.work.flags.forceNewJacobian = false ∧
          t.marks = s.marks) := by
  refine (evaluateJacobian_after P x f s).mono (fun answer t _ h => ?_) fun halt t _ h => ?_
  · rintro mishap rfl
    exact congrArg Marks.current h
  · obtain hmarks | ⟨_, hsource⟩ := h
    · have hcurrent : t.work.flags.jacobianCurrent = s.work.flags.jacobianCurrent :=
        congrArg Marks.current hmarks
      have hforced : t.work.flags.forceNewJacobian = s.work.flags.forceNewJacobian :=
        congrArg Marks.forced hmarks
      rw [hcurrent, hforced]
      cases s.work.flags.jacobianCurrent with
      | false => exact .inr (.inl rfl)
      | true =>
        cases s.work.flags.forceNewJacobian with
        | true => exact .inr (.inr (.inl rfl))
        | false => exact .inr (.inr (.inr (.inr ⟨rfl, rfl, hmarks⟩)))
    · exact .inr (.inr (.inr (.inl hsource.complete)))

/-! ## The invariant -/

section
variable {T : Session α σ n → Mat α n n → Prop}

/-- No factorization is newer than the Jacobian. -/
def Memory.Dated (m : Memory α n) : Prop := ∀ g, m.factoredGeneration = some g → g ≤ m.generation

/-- A Jacobian that may be used has a property of matrices, and so has the matrix that its
factorization was made from. -/
structure Memory.Accountable (T : Session α σ n → Mat α n n → Prop) (t : Session α σ n)
    (m : Memory α n) : Prop where
  dated : m.Dated
  jacobian : m.flags.jacobianCurrent = true → m.flags.forceNewJacobian = false → T t m.jacobian
  factors : m.flags.jacobianCurrent = true → m.flags.forceNewJacobian = false →
    m.factoredGeneration = some m.generation → m.factorization.isPresent = true →
    ∃ K, m.factorization.Of K ∧ T t K

namespace Memory.Accountable

theorem of_fresh : (Workspace.fresh n : Workspace α n).toMemory.Accountable T t where
  dated _ h := nomatch h
  jacobian h := nomatch h
  factors h := nomatch h

theorem later {m : Memory α n} (hT : Origin P T) (h : m.Accountable T s) (hst : Trail s t) :
    m.Accountable T t where
  dated := h.dated
  jacobian hcurrent hforced := hT.later (h.jacobian hcurrent hforced) hst
  factors hcurrent hforced hgeneration hpresent :=
    have ⟨K, hK, hTK⟩ := h.factors hcurrent hforced hgeneration hpresent
    ⟨K, hK, hT.later hTK hst⟩

/-- A Jacobian that has just changed is newer than every factorization. -/
theorem changed {m m' : Memory α n} (hdated : m.Dated)
    (hfactored : m'.factoredGeneration = m.factoredGeneration)
    (hgeneration : m'.generation = m.generation + 1)
    (hjacobian : m'.flags.forceNewJacobian = false → T t m'.jacobian) : m'.Accountable T t := by
  have hnewer : ∀ g, m'.factoredGeneration = some g → g < m'.generation := by
    intro g hg
    rw [hfactored] at hg
    have hle := hdated g hg
    omega
  exact ⟨fun g hg => Nat.le_of_lt (hnewer g hg), fun _ => hjacobian,
    fun _ _ hg => absurd (hnewer _ hg) (Nat.lt_irrefl _)⟩

/-- A Jacobian that may not be used. -/
theorem useless {m m' : Memory α n} (hdated : m.Dated)
    (hfactored : m'.factoredGeneration = m.factoredGeneration)
    (hgeneration : m'.generation = m.generation)
    (huseless : m'.flags.jacobianCurrent = true → m'.flags.forceNewJacobian = false → False) :
    m'.Accountable T t where
  dated g hg := by
    rw [hfactored] at hg
    rw [hgeneration]
    exact hdated g hg
  jacobian hcurrent hforced := (huseless hcurrent hforced).elim
  factors hcurrent hforced := (huseless hcurrent hforced).elim

/-- The second memory has the matrix, the factorization and the marks of the first one, and may be
forced. -/
theorem kept (hT : Origin P T) (h : s.work.toMemory.Accountable T s) (hst : Trail s t)
    (hjacobian : t.work.jacobian = s.work.jacobian)
    (hfactors : t.work.factorization = s.work.factorization)
    (hgeneration : t.work.generation = s.work.generation)
    (hfactored : t.work.factoredGeneration = s.work.factoredGeneration)
    (hcurrent : t.work.flags.jacobianCurrent = s.work.flags.jacobianCurrent)
    (hforced : s.work.flags.forceNewJacobian = true → t.work.flags.forceNewJacobian = true) :
    t.work.toMemory.Accountable T t := by
  have hunforced : t.work.flags.forceNewJacobian = false → s.work.flags.forceNewJacobian = false :=
    fun ht => Bool.eq_false_iff.2 fun hs => by
      rw [hforced hs] at ht
      cases ht
  have hs := h.later hT hst
  refine ⟨fun g hg => ?_, fun hc hf => ?_, fun hc hf hg hp => ?_⟩
  · rw [hfactored] at hg
    rw [hgeneration]
    exact hs.dated g hg
  · rw [hjacobian]
    exact hs.jacobian (hcurrent ▸ hc) (hunforced hf)
  · rw [hfactored, hgeneration] at hg
    rw [hfactors] at hp ⊢
    exact hs.factors (hcurrent ▸ hc) (hunforced hf) hg hp

theorem of_stock (hT : Origin P T) (h : s.work.toMemory.Accountable T s) (hst : Trail s t)
    (hstock : t.stock = s.stock) : t.work.toMemory.Accountable T t :=
  h.kept hT hst (congrArg Prod.snd hstock) (congrArg (fun p => p.1.factorization) hstock)
    (congrArg (fun p => p.1.generation) hstock) (congrArg (fun p => p.1.factoredGeneration) hstock)
    (congrArg (fun p => p.1.current) hstock)
    fun hs => (congrArg (fun p => p.1.forced) hstock).trans hs

theorem aside (hT : Origin P T) (h : s.work.toMemory.Accountable T s) (hst : Aside s t) :
    t.work.toMemory.Accountable T t :=
  h.kept hT hst.trail hst.jacobian hst.factorization hst.generation hst.factoredGeneration
    hst.current hst.forced

/-- A matrix that was just factored. -/
theorem refactored {usable : Bool} (hT : Origin P T) (h : s.work.toMemory.Accountable T s)
    (hst : Trail s t) (hfactored : Refactored s.dated t usable) :
    t.work.toMemory.Accountable T t := by
  have hgeneration : t.work.generation = s.work.generation :=
    congrArg Marks.generation hfactored.marks
  have hdated : t.work.factoredGeneration = some s.work.generation :=
    congrArg Marks.factoredGeneration hfactored.marks
  have hcurrent : t.work.flags.jacobianCurrent = s.work.flags.jacobianCurrent :=
    congrArg Marks.current hfactored.marks
  have hforced : t.work.flags.forceNewJacobian = s.work.flags.forceNewJacobian :=
    congrArg Marks.forced hfactored.marks
  have hjacobian : t.work.jacobian = s.work.jacobian := hfactored.jacobian
  have hTt : t.work.flags.jacobianCurrent = true → t.work.flags.forceNewJacobian = false →
      T t t.work.jacobian := by
    rw [hcurrent, hforced, hjacobian]
    exact fun hc hf => hT.later (h.jacobian hc hf) hst
  refine ⟨fun g hg => ?_, hTt, fun hc hf _ hpresent => ?_⟩
  · rw [hdated] at hg
    cases hg
    exact Nat.le_of_eq hgeneration.symm
  · cases usable with
    | true => exact ⟨_, hfactored.present rfl, hTt hc hf⟩
    | false =>
      have habsent : t.work.factorization = .none := hfactored.absent rfl
      rw [habsent] at hpresent
      cases hpresent

theorem sourced {x f : Vector α n} (hT : Origin P T) (hdated : s.work.toMemory.Dated)
    (hst : Trail s t) (hmarks : t.marks = s.marks.renewed) (hsource : Sourced P x f s t) :
    t.work.toMemory.Accountable T t :=
  changed hdated (congrArg Marks.factoredGeneration hmarks) (congrArg Marks.generation hmarks)
    fun _ => hT.sourced hsource hst

theorem step (hT : Origin P T) (h : s.work.toMemory.Accountable T s) (hst : Step P o s t) :
    t.work.toMemory.Accountable T t := by
  have htrail : Trail s t := hst.course.trail
  cases hst with
  | aside hst => exact h.aside hT hst
  | evaluated _ hrun =>
    obtain ⟨hmarks, hsource⟩ := (evaluateJacobian_after P _ _ s).ok hrun
    exact sourced hT h.dated htrail hmarks hsource
  | rejected hrun =>
    have hmarks := (evaluateJacobian_after P _ _ s).ok hrun
    have hrejected : t.work.flags.jacobianCurrent = false := congrArg Marks.current hmarks
    refine useless h.dated (congrArg Marks.factoredGeneration hmarks) (congrArg Marks.generation hmarks)
      fun hcurrent _ => ?_
    rw [hrejected] at hcurrent
    cases hcurrent
  | updated hcurrent _ hJ =>
    exact changed h.dated rfl rfl fun hforced =>
      hT.later (hT.updated (h.jacobian hcurrent hforced) hJ) htrail
  | factored hrun => exact h.refactored hT htrail ((factorize_after s).ok hrun)
  | factoredDirectly _ hrun => exact h.refactored hT htrail ((factorDirect_after s).ok hrun)
  | unfactored _ _ _ =>
    exact ⟨nofun, fun hc hf => hT.later (h.jacobian hc hf) htrail, fun _ _ hg => nomatch hg⟩

theorem steps (hT : Origin P T) (h : s.work.toMemory.Accountable T s) (hst : Steps P o s t) :
    t.work.toMemory.Accountable T t := by
  induction hst with
  | refl => exact h
  | tail _ hstep ih => exact ih.step hT hstep

/-- An evaluation that is cut short leaves the matrix as it was, or halfway, under the marks that it
had; its factorization is still the one of the old matrix. -/
theorem torn (h : s.work.toMemory.Accountable (Traced P) s) (hst : Torn P o s t) :
    t.work.toMemory.Accountable (Traced P) t := by
  have hT := Traced.origin P
  have htrail : Trail s t := hst.course.trail
  obtain ⟨_, f, halt, _, hrun⟩ := hst
  obtain hmarks | ⟨hmarks, hsource⟩ := (evaluateJacobian_after P s.x f s).error hrun
  · have hcurrent : t.work.flags.jacobianCurrent = s.work.flags.jacobianCurrent :=
      congrArg Marks.current hmarks
    have hforced : t.work.flags.forceNewJacobian = s.work.flags.forceNewJacobian :=
      congrArg Marks.forced hmarks
    have hgeneration : t.work.generation = s.work.generation := congrArg Marks.generation hmarks
    have hfactored : t.work.factoredGeneration = s.work.factoredGeneration :=
      congrArg Marks.factoredGeneration hmarks
    have hfactors : t.work.factorization = s.work.factorization :=
      congrArg Marks.factorization hmarks
    have hs := h.later hT htrail
    refine ⟨fun g hg => ?_, fun hc hf => ?_, fun hc hf hg hp => ?_⟩
    · rw [hfactored] at hg
      rw [hgeneration]
      exact hs.dated g hg
    · rw [hcurrent] at hc
      rw [hforced] at hf
      by_cases hchanged : t.work.jacobian = s.work.jacobian
      · rw [hchanged]
        exact hs.jacobian hc hf
      · exact .inr ⟨s.x, f, halt, s, t, hc, hf, hrun, hmarks, hchanged, Course.refl _ t, .refl⟩
    · rw [hfactored, hgeneration] at hg
      rw [hfactors] at hp ⊢
      exact hs.factors (hcurrent ▸ hc) (hforced ▸ hf) hg hp
  · exact sourced hT h.dated htrail hmarks hsource

end Memory.Accountable

end

/-- A Jacobian that is marked as evaluated at the point comes from a complete evaluation. -/
def Session.Pinned (P : Problem α σ n) (s : Session α σ n) : Prop :=
  s.work.jacobianAtPoint = true → s.work.toMemory.Accountable (Entire P) s

namespace Session.Pinned

theorem of_unmarked (h : s.work.jacobianAtPoint = false) : s.Pinned P := fun hpoint => by
  rw [h] at hpoint
  cases hpoint

theorem of_stock (h : s.Pinned P) (hst : Trail s t) (hstock : t.stock = s.stock) : t.Pinned P :=
  fun hpoint => (h ((congrArg (fun p => p.1.atPoint) hstock).symm.trans hpoint)).of_stock
    (Entire.origin P) hst hstock

theorem aside (h : s.Pinned P) (hst : Aside s t) : t.Pinned P := fun hpoint =>
  (h (hst.atPoint hpoint).1).aside (Entire.origin P) hst

/-- The mark is put on where the Jacobian is evaluated, and nowhere else. -/
theorem step (h : s.Pinned P) (hdated : s.work.toMemory.Dated) (hst : Step P o s t) :
    t.Pinned P := by
  intro hpoint
  have hT := Entire.origin P
  have htrail : Trail s t := hst.course.trail
  cases hst with
  | aside hst => exact h.aside hst hpoint
  | evaluated _ hrun =>
    obtain ⟨hmarks, hsource⟩ := (evaluateJacobian_after P _ _ s).ok hrun
    exact .sourced hT hdated htrail hmarks hsource
  | rejected hrun =>
    have hmarks := (evaluateJacobian_after P _ _ s).ok hrun
    rw [show t.work.jacobianAtPoint = false from congrArg Marks.atPoint hmarks] at hpoint
    cases hpoint
  | updated _ helsewhere _ =>
    have hpoint : s.work.jacobianAtPoint = true := hpoint
    rw [helsewhere] at hpoint
    cases hpoint
  | factored hrun =>
    have hfactored := (factorize_after s).ok hrun
    exact (h ((congrArg Marks.atPoint hfactored.marks).symm.trans hpoint)).refactored hT htrail
      hfactored
  | factoredDirectly _ hrun =>
    have hfactored := (factorDirect_after s).ok hrun
    exact (h ((congrArg Marks.atPoint hfactored.marks).symm.trans hpoint)).refactored hT htrail
      hfactored
  | unfactored hmethod hdoubtful hrun =>
    exact (h hpoint).step hT (.unfactored (o := s) hmethod hdoubtful hrun)

theorem steps (h : s.Pinned P) (hs : s.work.toMemory.Accountable (Traced P) s)
    (hst : Steps P o s t) : t.Pinned P := by
  induction hst with
  | refl => exact h
  | tail hsteps hstep ih => exact ih.step (hs.steps (Traced.origin P) hsteps).dated hstep

/-- A method without line search evaluates no Jacobian that is marked as evaluated at the point. -/
theorem of_torn (hdated : s.work.toMemory.Dated) (hmethod : P.options.method ≠ .damped)
    (hst : Torn P o s t) : t.Pinned P := by
  intro hpoint
  have htrail : Trail s t := hst.course.trail
  obtain ⟨hready, f, halt, _, hrun⟩ := hst
  obtain hmarks | ⟨hmarks, hsource⟩ := (evaluateJacobian_after P s.x f s).error hrun
  · refine .useless hdated (congrArg Marks.factoredGeneration hmarks)
      (congrArg Marks.generation hmarks) fun hcurrent hforced => hready hmethod ?_
    exact ⟨(congrArg Marks.current hmarks).symm.trans hcurrent,
      (congrArg Marks.atPoint hmarks).symm.trans hpoint,
      (congrArg Marks.forced hmarks).symm.trans hforced⟩
  · exact .sourced (Entire.origin P) hdated htrail hmarks hsource

end Session.Pinned

/-- What a block remembers can be accounted for, and so can what its accepted outer step does. Where
it is solved without line search, its Jacobian is complete if it is marked as evaluated at the
point. -/
structure Session.Accountable (P : Problem α σ n) (s : Session α σ n) : Prop where
  memory : s.work.toMemory.Accountable (Traced P) s
  accepted : ∀ c, s.work.accepted = some c → c.memory.Accountable (Traced P) s
  pinned : P.options.method ≠ .damped → s.Pinned P

namespace Session.Accountable

theorem of_fresh (h : s.work = Workspace.fresh n) : s.Accountable P := by
  have haccepted : s.work.accepted = none := h ▸ rfl
  have hunmarked : s.work.jacobianAtPoint = false := h ▸ rfl
  refine ⟨h ▸ .of_fresh, fun c hc => ?_, fun _ => .of_unmarked hunmarked⟩
  cases haccepted.symm.trans hc

theorem shift (h : s.Accountable P) (hst : Shift s t) : t.Accountable P where
  memory := h.memory.of_stock (Traced.origin P) hst.course.trail hst.stock
  accepted c hc :=
    (h.accepted c (hst.course.keeps.symm.trans hc)).later (Traced.origin P) hst.course.trail
  pinned hmethod := (h.pinned hmethod).of_stock hst.course.trail hst.stock

theorem aside (h : s.Accountable P) (hst : Aside s t) : t.Accountable P where
  memory := h.memory.aside (Traced.origin P) hst
  accepted c hc :=
    (h.accepted c (hst.accepted.symm.trans hc)).later (Traced.origin P) hst.trail
  pinned hmethod := (h.pinned hmethod).aside hst

theorem steps (h : s.Accountable P) (hst : Steps P o s t) : t.Accountable P where
  memory := h.memory.steps (Traced.origin P) hst
  accepted c hc :=
    (h.accepted c (hst.course.keeps.symm.trans hc)).later (Traced.origin P) hst.trail
  pinned hmethod := (h.pinned hmethod).steps h.memory hst

theorem halted (h : s.Accountable P) (hst : Halted P o s t) : t.Accountable P := by
  obtain ⟨v, hsv, rfl | htorn⟩ := hst
  · exact h.steps hsv
  · have hv := h.steps hsv
    exact
      { memory := hv.memory.torn htorn
        accepted := fun c hc =>
          (hv.accepted c (htorn.course.keeps.symm.trans hc)).later (Traced.origin P)
            htorn.course.trail
        pinned := fun hmethod => .of_torn hv.memory.dated hmethod htorn }

theorem entered (h : s.Accountable P) (hst : Entered P s t) : t.Accountable P := by
  have htrail : Trail s t := hst.trail
  have hT := Traced.origin P
  cases hst with
  | atOnce _ => exact h
  | opened hmethod hopen =>
    refine ⟨?_, ?_, fun hne => absurd hmethod hne⟩
    · cases hopen with
      | @inPlace v hshift =>
        exact (h.shift hshift).memory.kept hT (Course.of_eq rfl rfl rfl) rfl rfl rfl rfl rfl id
      | wentBack _ _ _ _ hc => exact (h.accepted _ hc).later hT htrail
    · cases hopen with
      | inPlace hshift =>
        exact fun c hc => (h.accepted c (hshift.course.keeps.symm.trans hc)).later hT htrail
      | wentBack _ _ _ _ _ => exact fun c hc => (h.accepted c hc).later hT htrail

theorem passage (h : s.Accountable P) (hst : Passage P s t) : t.Accountable P := by
  cases hst with
  | stopped hst => exact h.shift hst.shift
  | unstarted hsr _ hrv hvt => exact ((h.shift hsr.shift).shift hrv).aside hvt
  | solved hsr hrv hvw hwt => exact (((h.shift hsr.shift).entered hrv).halted hvw).aside hwt

theorem inspection (h : s.Accountable P) (hst : Inspection P s t) : t.Accountable P := by
  cases hst with
  | stopped hst => exact h.shift hst.shift
  | evaluated hsr hrt => exact (h.shift hsr.shift).halted hrt

/-- A change of anything but the workspace. -/
theorem elsewhere (h : s.Accountable P) (hst : Trail s t) (hwork : t.work = s.work) :
    t.Accountable P := by
  have hT := Traced.origin P
  refine ⟨?_, fun c hc => ?_, fun hmethod hpoint => ?_⟩
  · rw [hwork]
    exact h.memory.later hT hst
  · rw [hwork] at hc
    exact (h.accepted c hc).later hT hst
  · rw [hwork] at hpoint ⊢
    exact (h.pinned hmethod hpoint).later (Entire.origin P) hst

theorem after {b : Block α σ n} (h : b.session.Accountable b.problem) (operation : Operation α) :
    (b.after operation).session.Accountable b.problem := by
  cases operation with
  | solve => exact h.passage b.passage
  | setPoint x => exact h.shift (b.setPoint_shift x)
  | evaluateJacobian => exact h.inspection b.inspection.1
  | factorizeJacobian => exact h.inspection b.inspection.2
  | completedOuterStep =>
    have htrail : Trail b.session (b.after .completedOuterStep).session := Course.of_eq rfl rfl rfl
    have hmemory := h.memory.later (Traced.origin _) htrail
    refine ⟨hmemory, fun c hc => ?_, fun hmethod hpoint => ?_⟩
    · cases hc
      exact hmemory
    · exact (h.pinned hmethod hpoint).later (Entire.origin _) htrail

end Session.Accountable

/-- Whatever happened to a block, what it and its checkpoints remember can be accounted for. -/
theorem Lived.accountable {b : Block α σ n} {kept : List (Checkpoint α n)} (h : Lived b kept) :
    b.session.Accountable b.problem ∧
      ∀ c ∈ kept, c.memory.Accountable (Traced b.problem) b.session := by
  have hT : ∀ P : Problem α σ n, Origin P (Traced P) := Traced.origin
  induction h with
  | create h =>
    obtain ⟨_, rfl⟩ := Block.create_eq_ok h
    exact ⟨.of_fresh rfl, List.forall_mem_nil _⟩
  | @after b kept operation _ ih =>
    obtain ⟨hb, hkept⟩ := ih
    rw [Block.after_problem]
    exact ⟨hb.after operation, fun c hc => (hkept c hc).later (hT _) (b.trail_after operation)⟩
  | @notifyEvent b kept _ ih =>
    have htrail : Trail b.session b.notifyEvent.session := Course.of_eq rfl rfl rfl
    exact ⟨ih.1.elsewhere htrail rfl, fun c hc => (ih.2 c hc).later (hT _) htrail⟩
  | @modifyModel b kept change _ ih =>
    have htrail : Trail b.session (b.modifyModel change).session := Course.of_eq rfl rfl rfl
    exact ⟨ih.1.elsewhere htrail rfl, fun c hc => (ih.2 c hc).later (hT _) htrail⟩
  | @teardown b kept _ ih =>
    have htrail : Trail b.session b.teardown.session := Course.of_eq rfl rfl rfl
    exact ⟨.of_fresh rfl, fun c hc => (ih.2 c hc).later (hT _) htrail⟩
  | checkpoint _ ih => exact ⟨ih.1, List.forall_mem_cons.2 ⟨ih.1.memory, ih.2⟩⟩
  | @restore b kept c _ hc ih =>
    obtain ⟨hb, hkept⟩ := ih
    rw [Block.restore_eq]
    have htrail : Trail b.session (b.session.rewound c) := Course.of_eq rfl rfl rfl
    exact ⟨⟨(hkept c hc).later (hT _) htrail, fun d hd => (hb.accepted d hd).later (hT _) htrail,
      fun _ => .of_unmarked rfl⟩, fun d hd => (hkept d hd).later (hT _) htrail⟩

/-! ## Iterations -/

theorem prepareJacobian_unforced {k : Nat} {x f : Vector α n} {fresh : Bool}
    (h : prepareJacobian P k x f s = .ok (.ok fresh) t) :
    t.work.flags.forceNewJacobian = false := by
  have hrun := (prepareJacobian_after P k x f s).ok h
  cases fresh with
  | true =>
    obtain ⟨hready, rfl⟩ | ⟨_, hrun⟩ := hrun
    · exact hready.unforced
    · exact congrArg Marks.forced ((evaluateJacobian_after P x f s).ok hrun).1
  | false =>
    have hunforced : s.work.flags.forceNewJacobian = false := by
      by_contra hforced
      have hplan : planJacobian P.options P.variability s.eventSinceJacobian s.work k f =
          .evaluate := if_pos (.inl (by simpa using hforced))
      unfold prepareJacobian at h
      rw [get_bind_apply, hplan] at h
      obtain ⟨answer, u, _, h⟩ := bind_eq_ok.1 h
      cases answer with
      | ok _ => cases h
      | error _ => cases h
    obtain ⟨_, rfl | ⟨J, _, rfl⟩⟩ := hrun
    · exact hunforced
    · exact hunforced

/-- What an iteration after another one of the same attempt starts from was left by steps from the
Jacobian of the one before. -/
theorem Walk.previous {tol : Tolerances α} {descent : Bool} {k : Nat} {path : List (Waypoint α n)}
    {f : Vector α n} {norm : α} {record : RunRecord α}
    (h : Walk P tol descent s (k + 1) path (.onward f norm record) u) :
    ∃ path' g norm' record' v w fresh,
      Walk P tol descent s k path' (.onward g norm' record') v ∧ k < P.options.maxIterations ∧
        prepareJacobian P (k + 1) v.x g v = .ok (.ok fresh) w ∧ Steps P w w u := by
  have prepared : ∀ {f g : Vector α n} {norm norm' : α} {record record' : RunRecord α}
      {v y : Session α σ n} {q : Heading α n},
      heading P tol descent (tightensScales P.options s.work) (k + 1) g norm' record' v =
        .ok (.inr q) y →
      searchAndMove P tol (k + 1) q.fresh v.x g q.norm record' q.step q.kind y =
        .ok (.onward f norm record) u →
      ∃ w, prepareJacobian P (k + 1) v.x g v = .ok (.ok q.fresh) w ∧ Steps P w w u := by
    intro f g norm norm' record record' v y q hheading hmove
    obtain ⟨w, hprepare, hwy⟩ := heading_prepared hheading
    exact ⟨w, hprepare, hwy.trans (Steps.of_aside ((aside_searchAndMove P ..).ok hmove))⟩
  cases h with
  | stays hwalk hk hheading _ hmove =>
    obtain ⟨w, hprepare, hwu⟩ := prepared hheading hmove
    exact ⟨_, _, _, _, _, w, _, hwalk, hk, hprepare, hwu⟩
  | moves hwalk hk hheading _ hmove =>
    obtain ⟨w, hprepare, hwu⟩ := prepared hheading hmove
    exact ⟨_, _, _, _, _, w, _, hwalk, hk, hprepare, hwu⟩

theorem FullStep.prepared {tol : Tolerances α} {k : Nat} {f g : Vector α n} {it : IterationRecord α}
    (h : FullStep P tol k f g it s t) :
    ∃ w, prepareJacobian P k s.x f s = .ok (.ok it.freshJacobian) w ∧ Steps P w w t := by
  obtain ⟨_, _, w, v, u, hprepare, hcompute, heval, rfl⟩ := h.taken
  have hwv : Steps P w w v := (tracked_computeStep P w f tol.step w (Course.refl _ w)).ok hcompute
  have hvu : Aside v u := (aside_evaluate P _).ok heval
  exact ⟨w, hprepare, hwv.trans (Steps.of_aside (hvu.trans (.moved rfl rfl rfl rfl rfl)))⟩

theorem Turn.previous {k : Nat} {f : Vector α n} (h : Turn P s (k + 2) f u) :
    ∃ g v w fresh, Turn P s (k + 1) g v ∧
      prepareJacobian P (k + 1) v.x g v = .ok (.ok fresh) w ∧ Steps P w w u := by
  cases h with
  | damped hmethod hlaunch hwalk _ =>
    obtain ⟨_, g, _, _, v, w, fresh, hwalk, hk, hprepare, hwu⟩ := hwalk.previous
    exact ⟨g, v, w, fresh, .damped hmethod hlaunch hwalk hk, hprepare, hwu⟩
  | undamped hmethod ht hstrides _ =>
    cases hstrides with
    | next hstrides hk hrun =>
      obtain ⟨_, hover, _⟩ | ⟨it, _, hstep, _⟩ := iterateUndamped_cases hrun
      · cases hover
      obtain ⟨w, hprepare, hwu⟩ := hstep.prepared
      exact ⟨_, _, w, _, .undamped hmethod ht hstrides hk, hprepare, hwu⟩

/-- A Jacobian that was kept or updated has the property that the one before had, and a fresh one has
it. -/
theorem prepareJacobian_accountable {T : Session α σ n → Mat α n n → Prop} {k : Nat}
    {f : Vector α n} {fresh : Bool} (hT : Origin P T) (hdated : s.work.toMemory.Dated)
    (hs : s.Ready ∨ s.Reusable P k → s.work.toMemory.Accountable T s)
    (h : prepareJacobian P k s.x f s = .ok (.ok fresh) t) : t.work.toMemory.Accountable T t := by
  have hrun := (prepareJacobian_after P k s.x f s).ok h
  cases fresh with
  | true =>
    obtain ⟨hready, rfl⟩ | ⟨_, hrun⟩ := hrun
    · exact hs (.inl hready)
    · obtain ⟨hmarks, hsource⟩ := (evaluateJacobian_after P s.x f s).ok hrun
      exact .sourced hT hdated ((course_evaluateJacobian P s.x f).ok hrun).trail hmarks hsource
  | false => exact (hs (.inr hrun.1)).steps (o := s) hT (hrun.2.steps hrun.1)

/-- At every iteration what the solve remembers can be accounted for, and a Jacobian that is marked as
evaluated at the point is complete. -/
theorem Turn.accountable {k : Nat} {f : Vector α n} (hs : s.Accountable P) (h : Turn P s k f u) :
    u.Accountable P ∧ u.Pinned P := by
  obtain ⟨v, hsv, hvu, _⟩ := h.reached
  have hv : v.Accountable P := hs.entered hsv
  have hpinned : v.Pinned P := by
    cases hsv with
    | atOnce hmethod => exact hs.pinned hmethod
    | opened _ hopen => exact .of_unmarked hopen.unmarked
  exact ⟨hv.steps hvu, hpinned.steps hv.memory hvu⟩

theorem Turn.traced {k : Nat} {f : Vector α n} {v : Session α σ n} {fresh : Bool}
    (hs : s.Accountable P) (h : Turn P s k f u)
    (hprepare : prepareJacobian P k u.x f u = .ok (.ok fresh) v) :
    v.work.toMemory.Accountable (Traced P) v :=
  have hu := (h.accountable hs).1.memory
  prepareJacobian_accountable (Traced.origin P) hu.dated (fun _ => hu) hprepare

/-- Where the Jacobian varies continuously, the first iteration of an attempt evaluates it, unless it
was evaluated at the point. -/
theorem Turn.entire {k : Nat} {f : Vector α n} {v : Session α σ n} {fresh : Bool}
    (hvariability : P.variability = .continuous) (hs : s.Accountable P) (h : Turn P s (k + 1) f u)
    (hprepare : prepareJacobian P (k + 1) u.x f u = .ok (.ok fresh) v) :
    v.work.toMemory.Accountable (Entire P) v := by
  induction k generalizing f u v fresh with
  | zero =>
    obtain ⟨hu, hpinned⟩ := h.accountable hs
    refine prepareJacobian_accountable (Entire.origin P) hu.memory.dated ?_ hprepare
    rintro (hready | hreusable)
    · exact hpinned hready.atPoint
    · have hreuse := hreusable.reusable rfl
      rw [hvariability] at hreuse
      cases hreuse
  | succ k ih =>
    obtain ⟨g, r, w, _, hturn, hw, hwu⟩ := h.previous
    have hu : u.work.toMemory.Accountable (Entire P) u :=
      (ih hturn hw).steps (Entire.origin P) hwu
    exact prepareJacobian_accountable (Entire.origin P) hu.dated (fun _ => hu) hprepare

theorem Turn.counted {k : Nat} {f : Vector α n} (h : Turn P s k f u) : ∃ j, k = j + 1 := by
  cases h with
  | damped _ _ _ _ => exact ⟨_, rfl⟩
  | undamped _ _ _ _ => exact ⟨_, rfl⟩
  | direct _ _ _ => exact ⟨0, rfl⟩

/-- The matrix in place has a property, and so has the one that the factorization was made from. -/
def Session.Founded (T : Session α σ n → Mat α n n → Prop) (t : Session α σ n) : Prop :=
  T t t.work.jacobian ∧ ∃ K, t.work.factorization.Of K ∧ T t K

theorem secureFactors_founded {T : Session α σ n → Mat α n n → Prop} {factor : Action α σ n Bool}
    {v w y : Session α σ n} (hT : Origin P T) (hv : v.work.toMemory.Accountable T v)
    (hcurrent : v.work.flags.jacobianCurrent = true)
    (hunforced : v.work.flags.forceNewJacobian = false) (hvw : Aside v w)
    (htracked : Tracked P w factor)
    (hfactor : ∀ s, After factor s (fun usable t => Refactored s.dated t usable) fun _ _ => False)
    (h : secureFactors factor w = .ok true y) : y.Founded T := by
  have hwy : Trail w y :=
    Steps.trail ((htracked.secureFactors w (Course.refl _ w)).ok h)
  have hjacobian : T y w.work.jacobian := by
    rw [hvw.jacobian]
    exact hT.later (hv.jacobian hcurrent hunforced) (hvw.trail.trans hwy)
  obtain ⟨hfactored, _, rfl⟩ | ⟨_, h⟩ := secureFactors_cases h
  · obtain ⟨hgeneration, hpresent⟩ := isFactored_iff.1 hfactored
    rw [hvw.factoredGeneration, hvw.generation] at hgeneration
    rw [hvw.factorization] at hpresent
    obtain ⟨K, hK, hTK⟩ := hv.factors hcurrent hunforced hgeneration hpresent
    refine ⟨hjacobian, K, ?_, hT.later hTK hvw.trail⟩
    rw [hvw.factorization]
    exact hK
  · have hrefactored := (hfactor w).ok h
    have hsame : y.work.jacobian = w.work.jacobian := hrefactored.jacobian
    have hy : T y y.work.jacobian := hsame ▸ hjacobian
    exact ⟨hy, _, hrefactored.present rfl, hy⟩

end

/-! ## A residual with a fence -/

/-- A residual that fails for good where the second unknown is above one. -/
def fenced : Vector Float 2 → Except EvalFailure (Vector Float 2) :=
  onTwo fun x y => if y > 1 then .error (.fatal "fence") else .ok (pair (x * x - 0.25) (y - 0.75))

/-- A block with this residual. -/
def fencedBlock : Block Float Unit 2 :=
  Block.pointwise { Options.standard with residualScaling := .none } #v[0.25, 0.25] fenced

/-- A session whose Jacobian is zero and counts as one that can be used. -/
def blankSession : Session Float Unit 2 :=
  { Session.fresh 2 () with
    work := { Workspace.fresh 2 with flags := { jacobianCurrent := true } } }

/-- Does the action halt in a session that passes a test? -/
def haltsAt {α σ : Type} {n : Nat} {β : Type} (a : Action α σ n β) (s : Session α σ n)
    (test : Session α σ n → Bool) : Bool :=
  match a s with
  | .ok _ _ => false
  | .error _ t => test t

theorem exists_of_haltsAt {α σ : Type} {n : Nat} {β : Type} {a : Action α σ n β}
    {s : Session α σ n} {test : Session α σ n → Bool} (h : haltsAt a s test = true) :
    ∃ halt t, a s = .error halt t ∧ test t = true := by
  unfold haltsAt at h
  split at h
  · cases h
  · next halt t hrun => exact ⟨halt, t, hrun, h⟩

/-- The same problem with a model that writes the first row of its Jacobian and then fails for good. -/
def tornProblem : Problem Float Unit 2 :=
  { fencedBlock.problem with
    options := { fencedBlock.problem.options with jacobianSource := .analytic }
    model := { fencedBlock.problem.model with
      jacobian := some fun _ m =>
        ⟨fun A => ((.error (.fatal "torn"), A.set 0 (pair 2 0) Nat.zero_lt_two), m)⟩ } }

/-- The row that the model wrote stays, next to the row that was there, and so do the marks. -/
example : ∃ t, Halfway tornProblem t t.work.jacobian ∧ (t.work.jacobian[0][0] == 2) = true ∧
    (t.work.jacobian[1][1] == 0) = true ∧ t.work.flags.jacobianCurrent = true := by
  have hchanged : blankSession.work.jacobian.set 0 (pair 2 0) Nat.zero_lt_two ≠
      blankSession.work.jacobian := fun h =>
    absurd (congrArg (fun A : Mat Float 2 2 => A[0][0] == 0) h) (by decide +kernel)
  exact ⟨_, .of_written (x := #v[1, 1]) rfl rfl rfl rfl rfl hchanged #v[0.75, 0.25],
    by decide +kernel, by decide +kernel, rfl⟩

end AlgebraicLoop
