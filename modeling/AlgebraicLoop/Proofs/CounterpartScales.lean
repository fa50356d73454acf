import AlgebraicLoop.Proofs.CounterpartJacobians

/-!
# Residual scales of counterpart sessions

Scales that are taken from the Jacobian change along with the units. A scale that has to be clamped does
not, and neither does a Jacobian that cannot be factored have a counterpart: from there on the sessions
may go their own ways, unless the units are the same. Both leave a notice.

* `Notice.disturbs`, `Session.Calm`: those notices, and a session without them;
* `Unless`: runs that correspond unless one of them is disturbed;
* `updateResidualScales_unless`, `tightenResidualScales_unless`: new scales correspond.
-/

namespace AlgebraicLoop
set_option autoImplicit false

/-- Had a scale to be clamped, or could the Jacobian not be factored? -/
def Notice.disturbs {α : Type} : Notice α → Bool
  | .scaleClamped _ _ _ | .singularJacobian _ => true
  | _ => false

section
variable {α σ ν : Type} {n : Nat} {β γ β' γ' : Type}

/-- No scale had to be clamped, and every Jacobian could be factored. -/
def Session.Calm (s : Session α σ n) : Prop := ∀ notice ∈ s.notices, notice.disturbs = false

/-- No notice is taken back. -/
structure Grows (s t : Session α σ n) : Prop where
  notices : ∀ notice ∈ s.notices, notice ∈ t.notices

theorem Grows.refl (s : Session α σ n) : Grows s s := ⟨fun _ h => h⟩

theorem Grows.trans {s t u : Session α σ n} (hst : Grows s t) (htu : Grows t u) : Grows s u :=
  ⟨fun notice h => htu.notices notice (hst.notices notice h)⟩

theorem Grows.of_eq {s t : Session α σ n} (h : t.notices = s.notices) : Grows s t :=
  ⟨fun _ hs => h ▸ hs⟩

theorem Grows.push {s t : Session α σ n} {notice : Notice α}
    (h : t.notices = s.notices.push notice) : Grows s t :=
  ⟨fun _ hs => h ▸ Array.mem_push_of_mem _ hs⟩

theorem Session.Calm.before {s t : Session α σ n} (h : t.Calm) (hst : Grows s t) : s.Calm :=
  fun notice hs => h notice (hst.notices notice hs)

theorem Session.not_calm_push {s t : Session α σ n} {notice : Notice α}
    (hdisturbs : notice.disturbs = true) (h : t.notices = s.notices.push notice) : ¬ t.Calm := by
  intro hcalm
  have hmem : notice ∈ t.notices := by
    rw [h]
    exact Array.mem_push_self
  exact Bool.false_ne_true ((hcalm notice hmem).symm.trans hdisturbs)

/-- The session that a result leaves. -/
def final : EStateM.Result (Halt α) (Session α σ n) β → Session α σ n
  | .ok _ s => s
  | .error _ s => s

theorem Follows.final {R : Session α σ n → Session α σ n → Prop} {a : Action α σ n β}
    (h : Follows R a) (s : Session α σ n) : R s (final (a s)) := by
  have hs := h s
  unfold After at hs
  cases ha : a s with
  | ok v t =>
    rw [ha] at hs
    exact hs
  | error halt t =>
    rw [ha] at hs
    exact hs

theorem final_bind {a : Action α σ n β} {f : β → Action α σ n β'} (s : Session α σ n)
    (hf : ∀ v, Follows Grows (f v)) : Grows (final (a s)) (final ((a >>= f) s)) := by
  rw [bind_apply]
  cases a s with
  | ok v t => exact (hf v).final t
  | error halt t => exact Grows.refl t

end

section
variable {α σ ν : Type} [Scalar α] {n : Nat} {β γ β' γ' : Type}

/-- Nothing that a solve does takes a notice back. -/
theorem closed_grows (P : Problem α σ n) (past : Bool) {δ : Type} (keep : Session α σ n → δ) :
    Closed P past keep fun _ a => Follows Grows a where
  value _ := Grows.refl
  seq ha hf := ha.bind (fun s t u (hst : Grows s t) (htu : Grows t u) => hst.trans htu) hf
  read _ hf s := hf s s
  residualNominals _ hf s := hf s s
  update hg s := Grows.of_eq (congrArg Ledger.notices (hg.silent s))
  notice _ _ := Grows.push rfl
  residual _ _ := after_evaluate (fun _ _ => Grows.of_eq rfl) (fun _ _ => Grows.of_eq rfl)
    (fun _ _ _ _ => Grows.push rfl) fun _ _ _ => Grows.of_eq rfl
  written _ _ _ _ hstore s := hstore _ s
  jacobian _ _ _ _ := follows_request fun _ => Grows.of_eq rfl
  directional _ _ _ _ := follows_request fun _ => Grows.of_eq rfl
  auxiliary _ _ := after_updateAuxiliary (fun _ _ => Grows.of_eq rfl) (fun _ _ => Grows.push rfl)
    fun _ => Grows.of_eq rfl
  limit _ _ _ := Grows.of_eq rfl

/-- One of two sessions with different units has been disturbed. -/
def Disturbed (E : Exchange α σ ν n) (s s' : Session α σ n) : Prop :=
  E.units ≠ .none ∧ ¬ (s.Calm ∧ s'.Calm)

theorem Disturbed.later {E : Exchange α σ ν n} {s s' t t' : Session α σ n}
    (h : Disturbed E s s') (hst : Grows s t) (hst' : Grows s' t') : Disturbed E t t' :=
  ⟨h.1, fun ⟨ht, ht'⟩ => h.2 ⟨ht.before hst, ht'.before hst'⟩⟩

/-- Two results that correspond, unless one of the sessions has been disturbed. -/
def Unless (E : Exchange α σ ν n) (Q : β → γ → Session α σ n → Session α σ n → Prop)
    (H : Session α σ n → Session α σ n → Prop) (r : EStateM.Result (Halt α) (Session α σ n) β)
    (r' : EStateM.Result (Halt α) (Session α σ n) γ) : Prop :=
  Disturbed E (final r) (final r') ∨ Meets Q H r r'

variable {E : Exchange α σ ν n} {P : Problem α σ n} {s s' : Session α σ n}

section
variable {Q : β → γ → Session α σ n → Session α σ n → Prop}
  {R : β' → γ' → Session α σ n → Session α σ n → Prop} {H : Session α σ n → Session α σ n → Prop}

theorem Unless.mono {Q' : β → γ → Session α σ n → Session α σ n → Prop}
    {H' : Session α σ n → Session α σ n → Prop}
    {r : EStateM.Result (Halt α) (Session α σ n) β} {r' : EStateM.Result (Halt α) (Session α σ n) γ}
    (h : Unless E Q H r r') (hQ : ∀ v v' t t', Q v v' t t' → Q' v v' t t')
    (hH : ∀ t t', H t t' → H' t t') : Unless E Q' H' r r' :=
  h.imp_right fun h => h.mono hQ hH

theorem Meets.unless {r : EStateM.Result (Halt α) (Session α σ n) β}
    {r' : EStateM.Result (Halt α) (Session α σ n) γ} (h : Meets Q H r r') : Unless E Q H r r' :=
  .inr h

/-- A part that corresponds in any case leads on to one that does unless it is disturbed. -/
theorem Meets.bind_unless {a : Action α σ n β} {a' : Action α σ n γ} {f : β → Action α σ n β'}
    {f' : γ → Action α σ n γ'} (h : Meets Q H (a s) (a' s'))
    (hf : ∀ v v' t t', Q v v' t t' → Unless E R H (f v t) (f' v' t')) :
    Unless E R H ((a >>= f) s) ((a' >>= f') s') := by
  obtain ⟨v, v', t, t', hs, hs', hv⟩ | ⟨halt, t, t', hs, hs', ht⟩ := h.ends
  · rw [bind_ok hs, bind_ok hs']
    exact hf v v' t t' hv
  · rw [bind_error hs, bind_error hs']
    exact .inr ⟨rfl, ht⟩

/-- What follows takes no notice back, so that a disturbance is not forgotten. -/
theorem Unless.bind {a : Action α σ n β} {a' : Action α σ n γ} {f : β → Action α σ n β'}
    {f' : γ → Action α σ n γ'} (h : Unless E Q H (a s) (a' s'))
    (hf : ∀ v v' t t', Q v v' t t' → Unless E R H (f v t) (f' v' t'))
    (hgrows : ∀ v, Follows Grows (f v)) (hgrows' : ∀ v, Follows Grows (f' v)) :
    Unless E R H ((a >>= f) s) ((a' >>= f') s') := by
  obtain hdisturbed | hmeets := h
  · exact .inl (hdisturbed.later (final_bind s hgrows) (final_bind s' hgrows'))
  · exact hmeets.bind_unless hf

end

/-! ## Storing scales -/

variable {R : Vector α n → Vector α n → Prop}

theorem clampScale_false {raw least greatest : α}
    (h : (clampScale raw least greatest).2 = false) :
    (clampScale raw least greatest).1 = raw := by
  unfold clampScale at h ⊢
  split at h
  · cases h
  · split at h
    · cases h
    · split at h
      · cases h
      · next hnan hleast hgreatest => rw [if_neg hnan, if_neg hleast, if_neg hgreatest]

/-- The session with a scale stored. -/
def Session.rescaled (s : Session α σ n) (i : Fin n) (scale : α) : Session α σ n :=
  { s with work := { s.work with residualScale := s.work.residualScale.set i scale i.isLt } }

theorem storeScale_apply (o : Options α) (raw : Vector α n) (i : Fin n) (s : Session α σ n) :
    storeScale o raw i s =
      if (clampScale raw[i] o.leastScale o.greatestScale).2 then
        .ok () ({ s with
          work := { s.work with flags.poorlyScaled := true }
          notices := s.notices.push
            (.scaleClamped i raw[i] (clampScale raw[i] o.leastScale o.greatestScale).1) }.rescaled i
          (clampScale raw[i] o.leastScale o.greatestScale).1)
      else .ok () (s.rescaled i (clampScale raw[i] o.leastScale o.greatestScale).1) := by
  unfold storeScale
  dsimp only
  split
  · rfl
  · rfl

theorem storeScale_disturbs {o : Options α} {raw : Vector α n} {i : Fin n} {s : Session α σ n}
    (h : (clampScale raw[i] o.leastScale o.greatestScale).2 = true) :
    ¬ (final (storeScale o raw i s)).Calm := by
  rw [storeScale_apply, if_pos h]
  have hdisturbs : (Notice.scaleClamped i raw[i]
      (clampScale raw[i] o.leastScale o.greatestScale).1).disturbs = true := rfl
  exact Session.not_calm_push (s := s) hdisturbs rfl

theorem grows_storeScales (o : Options α) (raw : Vector α n) (is : List (Fin n)) :
    Follows (@Grows α σ n) (is.forM (storeScale o raw)) := by
  induction is with
  | nil => exact Grows.refl
  | cons i rest ih =>
    refine Follows.bind (fun s t u (hst : Grows s t) (htu : Grows t u) => hst.trans htu) (fun s => ?_)
      fun _ => ih
    unfold After
    rw [storeScale_apply]
    by_cases hclamped : (clampScale raw[i] o.leastScale o.greatestScale).2 = true
    · rw [if_pos hclamped]
      exact Grows.push rfl
    · rw [if_neg hclamped]
      exact Grows.of_eq rfl

theorem storeScale_calm {o : Options α} {raw : Vector α n} {i : Fin n} {s : Session α σ n}
    (h : ¬ (clampScale raw[i] o.leastScale o.greatestScale).2 = true) :
    storeScale o raw i s = .ok () (s.rescaled i raw[i]) := by
  rw [storeScale_apply, if_neg h, clampScale_false (Bool.eq_false_iff.2 h)]

/-- The residual scales correspond, but for those that are still to be stored. -/
def UnitChange.ScaledBut (U : UnitChange α n) (left : List (Fin n)) (w w' : Vector α n) : Prop :=
  ∀ i : Fin n, i ∉ left → w'[i] = U.shrink i w[i]

theorem UnitChange.ScaledBut.scaled {U : UnitChange α n} {w w' : Vector α n}
    (h : U.ScaledBut [] w w') : U.Scaled w w' := by
  ext i hi
  simpa using h ⟨i, hi⟩ List.not_mem_nil

theorem UnitChange.ScaledBut.set {U : UnitChange α n} {i : Fin n} {rest : List (Fin n)}
    {w w' : Vector α n} (h : U.ScaledBut (i :: rest) w w') (scale : α) :
    U.ScaledBut rest (w.set i scale i.isLt) (w'.set i (U.shrink i scale) i.isLt) := by
  intro k hk
  by_cases hik : i = k
  · subst hik
    simp
  · have hne : i.val ≠ k.val := fun hval => hik (Fin.ext hval)
    have hk : k ∉ i :: rest := by simp [hk, Ne.symm hik]
    simpa [Vector.getElem_set, hne] using h k hk

/-- A family of relations between what is known of the Jacobian that relates the scales as it is told,
and does not look at them otherwise. -/
structure Rescalable (T : (Vector α n → Vector α n → Prop) → Gear α n → Gear α n → Prop) : Prop where
  scale : ∀ R g g', T R g g' → R g.residualScale g'.residualScale
  rescale : ∀ R R' g g' w w', T R g g' → R' w w' →
    T R' { g with residualScale := w } { g' with residualScale := w' }

variable {T : (Vector α n → Vector α n → Prop) → Gear α n → Gear α n → Prop}

theorem Mirror.rescaled (hT : Rescalable T) {i : Fin n} {rest : List (Fin n)}
    (h : Mirror E (T (E.units.ScaledBut (i :: rest))) s s') (scale : α) :
    Mirror E (T (E.units.ScaledBut rest)) (s.rescaled i scale)
      (s'.rescaled i (E.units.shrink i scale)) := by
  have hscale : E.units.ScaledBut (i :: rest) s.work.residualScale s'.work.residualScale :=
    hT.scale _ _ _ h.gear
  exact ⟨h.core, hT.rescale _ _ s.gear s'.gear _ _ h.gear (hscale.set scale), h.view, h.points⟩

theorem storeScale_unless (hT : Rescalable T) {H : Session α σ n → Session α σ n → Prop}
    (o : Options α) (raw : Vector α n) {i : Fin n} {rest : List (Fin n)}
    (h : Mirror E (T (E.units.ScaledBut (i :: rest))) s s') :
    Unless E (fun _ _ => Mirror E (T (E.units.ScaledBut rest))) H (storeScale o raw i s)
      (storeScale o (E.units.scales raw) i s') := by
  by_cases hunits : E.units = .none
  · -- the scales are the same, and so is what is made of them
    have hraw : E.units.scales raw = raw := by rw [hunits, UnitChange.none_scales]
    have hshrink : ∀ scale, E.units.shrink i scale = scale := fun scale => by rw [hunits]; rfl
    rw [hraw, storeScale_apply, storeScale_apply]
    split
    · have hcore := congrArg (fun c : Core α n => { c with poorlyScaled := true }) h.core
      have hmarked : Mirror E (T (E.units.ScaledBut (i :: rest)))
          { s with work := { s.work with flags.poorlyScaled := true } }
          { s' with work := { s'.work with flags.poorlyScaled := true } } :=
        ⟨hcore, h.gear, h.view, h.points⟩
      have hclamped := hmarked.rescaled hT (clampScale raw[i] o.leastScale o.greatestScale).1
      rw [hshrink] at hclamped
      exact .inr ⟨hclamped.core, hclamped.gear, hclamped.view, hclamped.points⟩
    · have hstored := h.rescaled hT (clampScale raw[i] o.leastScale o.greatestScale).1
      rw [hshrink] at hstored
      exact .inr hstored
  · by_cases hleft : (clampScale raw[i] o.leastScale o.greatestScale).2 = true
    · exact .inl ⟨hunits, fun hcalm => storeScale_disturbs hleft hcalm.1⟩
    · by_cases hright :
          (clampScale (E.units.scales raw)[i] o.leastScale o.greatestScale).2 = true
      · exact .inl ⟨hunits, fun hcalm => storeScale_disturbs hright hcalm.2⟩
      · rw [storeScale_calm hleft, storeScale_calm hright]
        have hraw : (E.units.scales raw)[i] = E.units.shrink i raw[i] := by simp
        rw [hraw]
        exact .inr (h.rescaled hT raw[i])

theorem storeScales_unless (hT : Rescalable T) {H : Session α σ n → Session α σ n → Prop}
    (o : Options α) (raw : Vector α n) (h : Mirror E (T R) s s') :
    Unless E (fun _ _ => Mirror E (T E.units.Scaled)) H (storeScales o raw s)
      (storeScales o (E.units.scales raw) s') := by
  have each : ∀ (left : List (Fin n)) (t t' : Session α σ n),
      Mirror E (T (E.units.ScaledBut left)) t t' →
      Unless E (fun _ _ => Mirror E (T E.units.Scaled)) H (left.forM (storeScale o raw) t)
        (left.forM (storeScale o (E.units.scales raw)) t') := by
    intro left
    induction left with
    | nil =>
      intro t t' ht
      refine .inr (ht.mono fun hg => ?_)
      exact hT.rescale _ _ t.gear t'.gear _ _ hg (hT.scale _ _ _ hg).scaled
    | cons i rest ih =>
      intro t t' ht
      exact (storeScale_unless hT o raw ht).bind (fun _ _ u u' hu => ih u u' hu)
        (fun _ => grows_storeScales o raw rest) fun _ => grows_storeScales o _ rest
  refine each (List.finRange n) s s' (h.mono fun hg => ?_)
  exact hT.rescale _ _ s.gear s'.gear _ _ hg fun i hi => absurd (List.mem_finRange i) hi

/-! ## New scales -/

/-- The Jacobians are in step, or neither can be used. -/
def InStep (U : UnitChange α n) (R : Vector α n → Vector α n → Prop) (g g' : Gear α n) : Prop :=
  Kept U R g g' ∨ Rejected R g g'

theorem InStep.geared {U : UnitChange α n} {g g' : Gear α n} (h : InStep U R g g') :
    Geared P U R g g' := h.imp_right Rejected.stale

theorem Geared.inStep {U : UnitChange α n} {g g' : Gear α n}
    (hmanual : P.options.residualScaling = .manual) (h : Geared P U R g g') : InStep U R g g' := by
  refine h.imp_right fun h => ?_
  obtain ⟨hg, hg'⟩ | ⟨hother, _⟩ := h.due
  · exact ⟨h.toLoose, hg, hg'⟩
  · exact absurd hmanual hother

theorem rescalable_kept (U : UnitChange α n) : Rescalable (Kept U) where
  scale _ _ _ h := h.scale
  rescale _ _ _ _ _ _ h hR :=
    ⟨⟨h.sane, h.sane', hR⟩, h.jacobian, h.current, h.forced, h.atPoint, h.age, h.eventSince,
      h.factored, h.alike⟩

theorem rescalable_inStep (U : UnitChange α n) : Rescalable (InStep U) where
  scale _ _ _ h := h.elim (fun h => h.scale) fun h => h.scale
  rescale R R' g g' w w' h hR :=
    h.imp (fun h => (rescalable_kept U).rescale R R' g g' w w' h hR) fun h =>
      ⟨⟨h.sane, h.sane', hR⟩, h.current, h.current'⟩

theorem rescalable_geared (U : UnitChange α n) : Rescalable (Geared P U) where
  scale _ _ _ h := h.loose.scale
  rescale R R' g g' w w' h hR :=
    h.imp (fun h => (rescalable_kept U).rescale R R' g g' w w' h hR) fun h =>
      ⟨⟨h.sane, h.sane', hR⟩, h.due⟩

/-- Raw scales in both sessions, with the Jacobians as `T` says; or none in either, and then what is
known of the Jacobians is as before, or they cannot be used. -/
def Drawn (E : Exchange α σ ν n) (R : Vector α n → Vector α n → Prop)
    (T T' : Gear α n → Gear α n → Prop) (v v' : Option (Vector α n)) (t t' : Session α σ n) : Prop :=
  v' = v.map E.units.scales ∧ (∀ raw, v = some raw → Mirror E T' t t') ∧
    (v = none → Mirror E (fun g g' => T g g' ∨ Rejected R g g') t t')

theorem freshRowScales_meets (hE : E.Fits P) {T : Gear α n → Gear α n → Prop}
    (hT : ∀ g g', T g g' → Loose R g g') (x : Vector α n) (h : Mirror E T s s') :
    Meets (Drawn E R T (Kept E.units R)) (Mirror E (Loose R)) (freshRowScales P x s)
      (freshRowScales (E.problem P) x s') := by
  have hresidual := (evaluate_echoes hE.determined x s s' h).mono (fun _ _ _ _ hv => hv)
    fun _ _ ht => ht.mono (hT _ _)
  refine hresidual.bind fun v v' t t' ⟨hv, ht⟩ => ?_
  subst hv
  cases v with
  | error _ => exact ⟨rfl, nofun, fun _ => ht.mono .inl⟩
  | ok f =>
    refine (evaluateJacobian_meets hE x f (ht.mono (hT _ _))).bind
      fun v v' u u' ⟨hv, hkept, hrejected⟩ => ?_
    subst hv
    cases v' with
    | error mishap => exact ⟨rfl, nofun, fun _ => (hrejected mishap rfl).mono .inr⟩
    | ok _ =>
      have hu := hkept rfl
      have hjacobian : u'.work.jacobian = E.units.matrix u.work.jacobian := hu.gear.jacobian
      dsimp only
      rw [get_bind_apply, get_bind_apply, hjacobian, hu.nominal]
      exact ⟨congrArg some (E.units.rowScales_matrix ..), fun _ _ => hu, nofun⟩

/-- The model's own magnitudes are put in where the units are the same. -/
theorem withNominals_meets (hE : E.Fits P) {T T' : Gear α n → Gear α n → Prop}
    {H : Session α σ n → Session α σ n → Prop} {automatic automatic' : Option (Vector α n)}
    (hunits : E.units = .none) (h : Drawn E R T T' automatic automatic' s s') :
    Meets (Drawn E R T T') H (withNominals P automatic s)
      (withNominals (E.problem P) automatic' s') := by
  have hscales : ∀ o : Option (Vector α n), o.map E.units.scales = o := by
    intro o
    rw [hunits]
    cases o with
    | none => rfl
    | some w => exact congrArg some (UnitChange.none_scales w)
  obtain ⟨hautomatic, hsome, hnone⟩ := h
  rw [hscales] at hautomatic
  subst hautomatic
  have hview : E.view s.model = E.view s'.model := by
    cases automatic' with
    | none => exact (hnone rfl).view
    | some w => exact (hsome w rfl).view
  have hmodel : (E.problem P).model.residualNominals s'.model =
      P.model.residualNominals s.model := (hE.determined.residualNominals _ _ hview).symm
  unfold withNominals
  rw [get_bind_apply, get_bind_apply, hmodel]
  cases P.model.residualNominals s.model with
  | none => exact ⟨(hscales _).symm, hsome, hnone⟩
  | some nominal =>
    refine ⟨(hscales _).symm, fun raw hraw => ?_, fun hraw => hnone (Option.map_eq_none_iff.1 hraw)⟩
    obtain ⟨w, hw, _⟩ := Option.map_eq_some_iff.1 hraw
    exact hsome w hw

theorem rawScales_meets (hE : E.Fits P) {T : Gear α n → Gear α n → Prop}
    (hT : ∀ g g', T g g' → Geared P E.units R g g') (hmode : P.options.residualScaling ≠ .none)
    (h : Mirror E T s s') :
    Meets (Drawn E R T (InStep E.units R)) (Mirror E (Loose R)) (rawScales P s)
      (rawScales (E.problem P) s') := by
  have rest : ∀ v v' t t', Drawn E R T (InStep E.units R) v v' t t' →
      Meets (Drawn E R T (InStep E.units R)) (Mirror E (Loose R))
        ((if P.options.residualScaling = .manual ∨ P.options.residualScaling = .hybrid then
          withNominals P v else pure v) t)
        ((if P.options.residualScaling = .manual ∨ P.options.residualScaling = .hybrid then
          withNominals (E.problem P) v' else pure v') t') := by
    intro v v' t t' hv
    split
    · next hown =>
      have hunits : E.units = .none := by
        obtain hunits | hautomatic := hE.scaling
        · exact hunits
        · rw [hautomatic] at hown
          exact absurd hown (by decide)
      exact withNominals_meets hE hunits hv
    · exact hv
  have hloose : ∀ g g', T g g' → Loose R g g' := fun g g' hg => (hT g g' hg).loose
  unfold rawScales
  rw [get_bind_apply, get_bind_apply]
  have hoptions : (E.problem P).options = P.options := rfl
  rw [hoptions]
  dsimp only
  split
  · rw [h.x]
    refine (freshRowScales_meets hE hloose s.x h).bind fun v v' t t' ⟨hv, hsome, hnone⟩ => ?_
    exact rest v v' t t' ⟨hv, fun raw hraw => (hsome raw hraw).mono .inl, hnone⟩
  · next hjacobian =>
    have hmanual : P.options.residualScaling = .manual := by
      cases hcase : P.options.residualScaling
      all_goals simp [hcase, ResidualScaling.usesJacobian] at hmode hjacobian ⊢
    have hones : some (Vector.replicate n 1) =
        (some (Vector.replicate n (1 : α))).map E.units.scales := by
      obtain hunits | hautomatic := hE.scaling
      · rw [hunits]
        exact congrArg some (UnitChange.none_scales _).symm
      · rw [hmanual] at hautomatic
        cases hautomatic
    have hpure : Meets (Drawn E R T (InStep E.units R)) (Mirror E (Loose R))
        ((pure (some (Vector.replicate n 1)) : Action α σ n (Option (Vector α n))) s)
        ((pure (some (Vector.replicate n 1)) : Action α σ n (Option (Vector α n))) s') :=
      ⟨hones, fun _ _ => h.mono fun hg => (hT _ _ hg).inStep hmanual, nofun⟩
    exact hpure.bind rest

theorem notify_echoes {T : Gear α n → Gear α n → Prop} (notice notice' : Notice α) :
    Echoes E T id (notify notice) (notify notice') :=
  fun _ _ h => ⟨rfl, h.core, h.gear, h.view, h.points⟩

theorem premark_echoes :
    Echoes E (InStep E.units R) id
      (modifyWork fun w => { w with premarkedSingular := true, factoredGeneration := none })
      (modifyWork fun w => { w with premarkedSingular := true, factoredGeneration := none }) := by
  intro s s' h
  have hcore := congrArg (fun c : Core α n => { c with premarkedSingular := true }) h.core
  refine ⟨rfl, hcore, ?_, h.view, h.points⟩
  obtain hkept | hrejected := h.gear
  · exact .inl ⟨⟨nofun, nofun, hkept.scale⟩, hkept.jacobian, hkept.current, hkept.forced,
      hkept.atPoint, hkept.age, hkept.eventSince, rfl, nofun⟩
  · exact .inr ⟨⟨nofun, nofun, hrejected.scale⟩, hrejected.current, hrejected.current'⟩

theorem checkCondition_echoes :
    Echoes E (InStep E.units E.units.Scaled) id (checkCondition P)
      (checkCondition (E.problem P)) := by
  intro s s' h
  have hpoorly : s'.work.flags.poorlyScaled = s.work.flags.poorlyScaled :=
    congrArg Core.poorlyScaled h.core
  have hcurrent : s'.work.flags.jacobianCurrent = s.work.flags.jacobianCurrent := by
    obtain hkept | hrejected := h.gear
    · exact hkept.current
    · exact hrejected.current'.trans hrejected.current.symm
  have hoptions : (E.problem P).options = P.options := rfl
  unfold checkCondition
  rw [get_bind_apply, get_bind_apply, hoptions, hpoorly, hcurrent, h.singular]
  dsimp only
  split
  · next hlook =>
    have hkept : Kept E.units E.units.Scaled s.gear s'.gear := by
      obtain hkept | hrejected := h.gear
      · exact hkept
      · have hoff : s.work.flags.jacobianCurrent = false := hrejected.current
        rw [hoff, Bool.and_false] at hlook
        exact absurd hlook Bool.false_ne_true
    have hjacobian : s'.work.jacobian = E.units.matrix s.work.jacobian := hkept.jacobian
    have hscale : s'.work.residualScale = E.units.scales s.work.residualScale := hkept.scale
    rw [hjacobian, hscale, h.variableScale, E.units.scaledCondition_eq]
    generalize scaledCondition s.work.jacobian s.work.residualScale s.work.variableScale = condition
    have mark : Echoes E (InStep E.units E.units.Scaled) id
        (do
          notify (.illConditioned condition)
          modifyWork fun w => { w with premarkedSingular := true, factoredGeneration := none } :
          Action α σ n Unit)
        (do
          notify (.illConditioned condition)
          modifyWork fun w => { w with premarkedSingular := true, factoredGeneration := none }) :=
      (notify_echoes _ _).seq fun _ => premark_echoes
    split
    · refine (notify_echoes _ _).seq (fun _ => ?_) s s' h
      split
      · exact mark
      · exact Echoes.value rfl
    · split
      · exact mark s s' h
      · exact ⟨rfl, h⟩
  · exact ⟨rfl, h⟩

/-- New scales correspond, or they stay as they were in both sessions. -/
theorem updateResidualScales_unless (hE : E.Fits P) {T : Gear α n → Gear α n → Prop}
    (hT : ∀ g g', T g g' → Geared P E.units R g g') (hR : ∀ w w', E.units.Scaled w w' → R w w')
    (h : Mirror E T s s') :
    Unless E (fun _ _ => Mirror E fun g g' => Geared P E.units E.units.Scaled g g' ∨ T g g' ∨
        Rejected R g g') (Mirror E (Loose R)) (updateResidualScales P s)
      (updateResidualScales (E.problem P) s') := by
  have hcore := congrArg (fun c : Core α n => { c with forceRescaling := false }) h.core
  have hcleared : Mirror E T
      { s with work := { s.work with flags.forceRescaling := false } }
      { s' with work := { s'.work with flags.forceRescaling := false } } :=
    ⟨hcore, h.gear, h.view, h.points⟩
  have smooth : ∀ {t t' : Session α σ n} {T : Gear α n → Gear α n → Prop}, Mirror E T t t' →
      Mirror E T { t with work := { t.work with flags.poorlyScaled := false } }
        { t' with work := { t'.work with flags.poorlyScaled := false } } := by
    intro t t' T ht
    have hcore := congrArg (fun c : Core α n => { c with poorlyScaled := false }) ht.core
    exact ⟨hcore, ht.gear, ht.view, ht.points⟩
  have hoptions : (E.problem P).options = P.options := rfl
  unfold updateResidualScales
  rw [modifyWork_bind_apply, modifyWork_bind_apply, hoptions]
  split
  · next hnone =>
    have hones : E.units.Scaled (Vector.replicate n 1) (Vector.replicate n 1) := by
      obtain hunits | hautomatic := hE.scaling
      · rw [hunits]
        exact (UnitChange.none_scales _).symm
      · rw [hnone] at hautomatic
        cases hautomatic
    have hs := smooth hcleared
    refine .inr ⟨hs.core, .inl ?_, hs.view, hs.points⟩
    exact (rescalable_geared E.units).rescale R _ s.gear s'.gear _ _ (hT _ _ h.gear) hones
  · next hmode =>
    refine (rawScales_meets hE hT hmode hcleared).bind_unless fun v v' t t' ⟨hv, hsome, hnone⟩ => ?_
    subst hv
    cases v with
    | none => exact .inr ((hnone rfl).mono .inr)
    | some raw =>
      have ht := smooth (hsome raw rfl)
      dsimp only [Option.map]
      rw [modifyWork_bind_apply, modifyWork_bind_apply]
      have hC := fun Q : Problem α σ n => (closed_grows Q true (Session.footing Q)).checkCondition
      refine (storeScales_unless (rescalable_inStep E.units) P.options raw ht).bind
        (fun _ _ u u' hu => ?_) (fun _ => hC P) fun _ => hC (E.problem P)
      refine ((checkCondition_echoes u u' hu).mono (fun _ _ _ _ hw => ?_) fun _ _ hw => ?_).unless
      · exact hw.2.mono fun hg => .inl hg.geared
      · refine hw.mono fun hg => ?_
        have hloose := Geared.loose (P := P) hg.geared
        exact ⟨hloose.sane, hloose.sane', hR _ _ hloose.scale⟩

/-- Scales are tightened alike. -/
theorem tightenResidualScales_unless {H : Session α σ n → Session α σ n → Prop} (x : Vector α n)
    (h : Mirror E (Kept E.units E.units.Scaled) s s') :
    Unless E (fun _ _ => Mirror E (Kept E.units E.units.Scaled)) H
      (tightenResidualScales P x s) (tightenResidualScales (E.problem P) x s') := by
  have hjacobian : s'.work.jacobian = E.units.matrix s.work.jacobian := h.gear.jacobian
  have hscale : s'.work.residualScale = E.units.scales s.work.residualScale := h.gear.scale
  have hoptions : (E.problem P).options = P.options := rfl
  unfold tightenResidualScales
  rw [get_bind_apply, get_bind_apply, hoptions, hjacobian, hscale, h.nominal,
    E.units.rowScales_matrix, E.units.tightened_scales]
  exact storeScales_unless (rescalable_kept E.units) P.options _ h

end

end AlgebraicLoop
