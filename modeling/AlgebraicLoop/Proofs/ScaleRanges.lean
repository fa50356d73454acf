import AlgebraicLoop.Proofs.FactorsInUse
import AlgebraicLoop.Proofs.MeritDescent

/-!
# Scales in range

Every later division by a scale relies on the scales being positive and finite. Without rounding
they are, whatever is asked of a block and whatever its model answers: a residual scale is confined
to the range of the options before it is stored, and the scale of an unknown is taken from a finite
nominal value. The tolerance must be finite for that, since no magnitude counts as less.

* `Options.Moderate`: the options that keep scales in range;
* `Memory.Tempered`, `Session.Tempered`: scales in range;
* `routine_tempers`: what a solve does keeps them there;
* `poorlyScaled_iff`: what the mark for poor scaling says;
* `scales_in_range`: the scales of a block and of its checkpoints.
-/

namespace AlgebraicLoop
set_option autoImplicit false

open Exact

section
variable {K : Type} [Field K] [LinearOrder K] [SquareRoot K] {n : Nat} {o : Options (Exact K)}

/-- Options with a positive and finite tolerance, a range around one for residual scales, and finite
magnitudes where these are given for the unknowns. -/
structure Options.Moderate (o : Options (Exact K)) : Prop where
  positive : 0 < o.tolerance
  finite : isFinite o.tolerance = true
  aboveZero : 0 < o.leastScale
  least : o.leastScale ≤ 1
  greatest : 1 ≤ o.greatestScale
  bounded : o.greatestScale < infinity
  manual : ∀ magnitudes, o.variableScaling = .manual magnitudes →
    ∀ x ∈ magnitudes, isFinite x = true

theorem Options.Moderate.within_one (ho : o.Moderate) : Within o.leastScale o.greatestScale 1 :=
  ⟨ho.least, ho.greatest⟩

/-! ## Single scales -/

/-- The scale is positive and finite, so that it can be divided by. -/
def Usable (x : Exact K) : Prop := 0 < x ∧ isFinite x = true

theorem Within.usable (ho : o.Moderate) {x : Exact K} (h : Within o.leastScale o.greatestScale x) :
    Usable x := by
  have hpositive : 0 < x :=
    ⟨exact_le_trans ho.aboveZero.1 h.1, fun hx => ho.aboveZero.2 (exact_le_trans h.1 hx)⟩
  have hbounded : x < infinity :=
    ⟨exact_le_trans h.2 ho.bounded.1, fun hx => ho.bounded.2 (exact_le_trans hx h.2)⟩
  exact ⟨hpositive, finite_of_between hpositive hbounded⟩

/-- A raw scale is told to have been changed exactly when it was. -/
theorem clampScale_changed (raw least greatest : Exact K) :
    (clampScale raw least greatest).2 = true ↔ (clampScale raw least greatest).1 ≠ raw := by
  have other : ∀ {x y : Exact K}, x < y → x ≠ y := fun h he => h.2 (he ▸ h.1)
  unfold clampScale
  split
  · next hraw =>
    rw [isNaN_iff.1 hraw, one_eq]
    exact ⟨fun _ => nofun, fun _ => rfl⟩
  · split
    · next hbelow => exact ⟨fun _ => (other hbelow).symm, fun _ => rfl⟩
    · split
      · next habove => exact ⟨fun _ => other habove, fun _ => rfl⟩
      · exact ⟨nofun, fun h => absurd rfl h⟩

end

section
variable {K : Type} [Field K] [LinearOrder K] [IsStrictOrderedRing K] [SquareRoot K] {σ : Type}
  {n : Nat} {P : Problem (Exact K) σ n} {s t : Session (Exact K) σ n} {o : Options (Exact K)}

theorem within_clampScale (ho : o.Moderate) (raw : Exact K) :
    Within o.leastScale o.greatestScale (clampScale raw o.leastScale o.greatestScale).1 := by
  have hrange : o.leastScale ≤ o.greatestScale := exact_le_trans ho.least ho.greatest
  obtain ⟨hleast, hgreatest⟩ := ne_nan_of_le hrange
  unfold clampScale
  split
  · exact ho.within_one
  · next hraw =>
    have hraw : raw ≠ nan := fun h => hraw (isNaN_iff.2 h)
    split
    · exact ⟨exact_le_self hleast, hrange⟩
    · next hbelow =>
      split
      · exact ⟨hrange, exact_le_self hgreatest⟩
      · next habove =>
        exact ⟨exact_le_of_not_lt hraw hleast hbelow, exact_le_of_not_lt hgreatest hraw habove⟩

theorem Rescaled.within {old new : Exact K} (h : Rescaled o old new) (ho : o.Moderate)
    (hold : Within o.leastScale o.greatestScale old) : Within o.leastScale o.greatestScale new := by
  obtain rfl | rfl | ⟨raw, rfl⟩ := h
  · exact hold
  · exact ho.within_one
  · exact within_clampScale ho raw

/-- No magnitude counts as less than the tolerance, so the inverse of a finite one is finite. -/
theorem usable_magnitudeScale (ho : o.Moderate) {x : Exact K} (hx : isFinite x = true) :
    Usable (magnitudeScale x o.tolerance) := by
  obtain ⟨a, rfl⟩ := isFinite_iff.1 hx
  obtain ⟨b, hb⟩ := isFinite_iff.1 ho.finite
  have hpositive := ho.positive
  rw [hb, zero_eq, finite_lt_finite] at hpositive
  have hlarger : ∃ c : K, 0 < c ∧ larger (abs (finite a)) (finite b) = finite c := by
    rw [abs_finite]
    unfold larger
    split
    · exact ⟨b, hpositive, rfl⟩
    · next h =>
      have hle : b ≤ |a| := not_lt.1 fun hlt => h (.inr (finite_lt_finite.2 hlt))
      exact ⟨|a|, hpositive.trans_le hle, rfl⟩
  obtain ⟨c, hc, hlarger⟩ := hlarger
  unfold Usable magnitudeScale
  rw [hb, hlarger, one_eq, finite_div _ hc.ne', zero_eq]
  exact ⟨finite_lt_finite.2 (one_div_pos.2 hc), rfl⟩

theorem usable_one : Usable (1 : Exact K) := by
  unfold Usable
  rw [zero_eq, one_eq]
  exact ⟨finite_lt_finite.2 one_pos, rfl⟩

theorem usable_variableScales (ho : o.Moderate) {nominal : Vector (Exact K) n}
    (hnominal : ∀ i : Fin n, isFinite nominal[i] = true) (i : Fin n) :
    Usable (variableScales o.variableScaling nominal o.tolerance)[i] := by
  unfold variableScales
  cases hmode : o.variableScaling with
  | none =>
    simp only [getElem_position, Vector.getElem_replicate]
    exact usable_one
  | nominal =>
    simp only [getElem_position, Vector.getElem_map]
    exact usable_magnitudeScale ho (hnominal i)
  | manual magnitudes =>
    simp only [getElem_position, Vector.getElem_mapIdx]
    refine usable_magnitudeScale ho ?_
    cases hgiven : magnitudes[i.val]? with
    | none => exact hnominal i
    | some x => exact ho.manual magnitudes hmode x (Array.mem_of_getElem? hgiven)

/-! ## Scales of a session -/

/-- The residual scales are in the range of the options, and the scales of the unknowns can be
divided by. -/
structure Memory.Tempered (o : Options (Exact K)) (m : Memory (Exact K) n) : Prop where
  residual : ∀ i : Fin n, Within o.leastScale o.greatestScale m.residualScale[i]
  unknown : ∀ i : Fin n, Usable m.variableScale[i]

/-- Scales that are in range, also those that the next solve may set up or go back to. -/
structure Session.Tempered (o : Options (Exact K)) (s : Session (Exact K) σ n) : Prop where
  memory : s.work.toMemory.Tempered o
  accepted : ∀ c, s.work.accepted = some c → c.memory.Tempered o
  nominal : ∀ i : Fin n, isFinite s.nominal[i] = true

omit [IsStrictOrderedRing K] in
theorem Memory.Tempered.of_scales {m m' : Memory (Exact K) n} (h : m.Tempered o)
    (hm : m'.scales = m.scales) : m'.Tempered o := by
  have hresidual : m'.residualScale = m.residualScale := congrArg Prod.snd hm
  have hunknown : m'.variableScale = m.variableScale := congrArg Prod.fst hm
  refine ⟨?_, ?_⟩
  · rw [hresidual]
    exact h.residual
  · rw [hunknown]
    exact h.unknown

/-- What decides whether the scales of a session are in range. -/
def Session.measures (s : Session (Exact K) σ n) :
    (Vector (Exact K) n × Vector (Exact K) n) × Option (Checkpoint (Exact K) n) ×
      Vector (Exact K) n := (s.work.scales, s.work.accepted, s.nominal)

omit [IsStrictOrderedRing K] in
theorem Session.Tempered.of_measures (h : s.Tempered o) (hst : t.measures = s.measures) :
    t.Tempered o where
  memory := h.memory.of_scales (congrArg Prod.fst hst)
  accepted := by
    have haccepted : t.work.accepted = s.work.accepted := congrArg (fun p => p.2.1) hst
    rw [haccepted]
    exact h.accepted
  nominal := by
    have hnominal : t.nominal = s.nominal := congrArg (fun p => p.2.2) hst
    rw [hnominal]
    exact h.nominal

theorem Workspace.tempered_fresh (ho : o.Moderate) :
    (Workspace.fresh n : Workspace (Exact K) n).toMemory.Tempered o where
  residual i := by
    have hone : (Vector.replicate n (1 : Exact K))[i] = 1 := Vector.getElem_replicate i.isLt
    change Within _ _ (Vector.replicate n (1 : Exact K))[i]
    rw [hone]
    exact ho.within_one
  unknown i := by
    have hone : (Vector.replicate n (1 : Exact K))[i] = 1 := Vector.getElem_replicate i.isLt
    change Usable (Vector.replicate n (1 : Exact K))[i]
    rw [hone]
    exact usable_one

theorem Session.Tempered.of_fresh (ho : o.Moderate) (hwork : s.work = Workspace.fresh n)
    (hnominal : ∀ i : Fin n, isFinite s.nominal[i] = true) : s.Tempered o where
  memory := by
    rw [hwork]
    exact Workspace.tempered_fresh ho
  accepted c hc := by
    have hnone : s.work.accepted = none := congrArg (fun w => w.accepted) hwork
    rw [hnone] at hc
    cases hc
  nominal := hnominal

theorem Session.tempered_fresh (ho : o.Moderate) (model : σ) :
    (Session.fresh n model : Session (Exact K) σ n).Tempered o := by
  refine .of_fresh ho rfl fun i => ?_
  have hone : (Vector.replicate n (1 : Exact K))[i] = 1 := Vector.getElem_replicate i.isLt
  change isFinite (Vector.replicate n (1 : Exact K))[i] = true
  rw [hone]
  exact usable_one.2

/-! ## What a solve does to the scales -/

/-- The scales stay in range. -/
def Tempers (o : Options (Exact K)) (s t : Session (Exact K) σ n) : Prop :=
  s.Tempered o → t.Tempered o

omit [IsStrictOrderedRing K] in
theorem Light.tempers (h : Light s t) : Tempers o s t := by
  intro hs
  have hnominal : t.nominal = s.nominal := congrArg (fun p => p.2.2) h.given
  refine ⟨hs.memory.of_scales h.scales, ?_, ?_⟩
  · rw [h.accepted]
    exact hs.accepted
  · rw [hnominal]
    exact hs.nominal

/-- Residual scales change only to what the options allow, and those of the unknowns not at all. -/
theorem closed_tempers (P : Problem (Exact K) σ n) (ho : P.options.Moderate) :
    Closed P true (Session.setting P) fun _ a => Follows (Tempers P.options) a := by
  have hC : Closed P true Session.measures
      fun _ a => Follows (fun s t : Session (Exact K) σ n => t.measures = s.measures) a :=
    closed_still P true (fun _ _ _ _ _ _ => rfl) fun _ _ _ => rfl
  have tempers : ∀ {β : Type} {a : Action (Exact K) σ n β},
      Follows (fun s t => t.measures = s.measures) a → Follows (Tempers P.options) a :=
    fun ha s => (ha s).mono (fun _ _ _ h hs => hs.of_measures h) fun _ _ _ h hs => hs.of_measures h
  exact
    { value := fun _ _ => id
      seq := fun ha hf => Follows.bind (fun _ _ _ hst htu hs => htu (hst hs)) ha hf
      read := fun _ hf s => hf s s
      residualNominals := fun _ hf s => hf s s
      update := fun {g} hg s hs => by
        have hkeeps := hg.keeps s
        have hunknown : (g s).work.variableScale = s.work.variableScale :=
          congrArg Setting.variableScale hkeeps
        have haccepted : (g s).work.accepted = s.work.accepted := congrArg Setting.accepted hkeeps
        have hnominal : (g s).nominal = s.nominal := congrArg Setting.nominal hkeeps
        refine ⟨⟨fun i => (hg.scales s i).within ho (hs.memory.residual i), ?_⟩, ?_, ?_⟩
        · rw [hunknown]
          exact hs.memory.unknown
        · rw [haccepted]
          exact hs.accepted
        · rw [hnominal]
          exact hs.nominal
      notice := fun notice => tempers (hC.notice notice)
      residual := fun x => tempers (hC.residual x)
      written := fun _ _ _ _ hstore s => hstore _ s
      jacobian := fun jacobian hj x A => tempers (hC.jacobian jacobian hj x A)
      directional := fun derivative hd x direction =>
        tempers (hC.directional derivative hd x direction)
      auxiliary := fun x => tempers (hC.auxiliary x)
      limit := fun x step => tempers (hC.limit x step) }

theorem prepareUnknowns_tempers (P : Problem (Exact K) σ n) :
    Follows (Tempers P.options) (prepareUnknowns P) := by
  intro s
  by_cases hphase : s.phase = .untouched
  · refine (prepareUnknowns_untouched P hphase).mono (fun _ t _ h hs => ?_) fun _ t _ h hs => ?_
    · refine ⟨by rw [h.work]; exact hs.memory, by rw [h.work]; exact hs.accepted, fun i => ?_⟩
      obtain ⟨v, x, hnominal⟩ := h.nominal i
      rw [hnominal]
      exact repairNominal_finite _ _ _ _
    · exact ⟨by rw [h.work]; exact hs.memory, by rw [h.work]; exact hs.accepted,
        by rw [h.nominal]; exact hs.nominal⟩
  · rw [after_congr (prepareUnknowns_again hphase)]
    exact id

theorem setUp_tempers (P : Problem (Exact K) σ n) (ho : P.options.Moderate) :
    Follows (Tempers P.options) (setUp P) := fun _ =>
  after_setUp (fun _ => id) fun _ hs =>
    ⟨⟨hs.memory.residual, usable_variableScales ho hs.nominal⟩, hs.accepted, hs.nominal⟩

omit [IsStrictOrderedRing K] in
theorem writeBack_tempers (P : Problem (Exact K) σ n) :
    Follows (Tempers P.options) (writeBack P) :=
  follows_writeBack fun _ hs => hs.of_measures rfl

theorem routine_tempers (P : Problem (Exact K) σ n) (ho : P.options.Moderate) :
    Routine P (Tempers P.options) where
  trans _ _ _ hst htu hs := htu (hst hs)
  light _ _ h := h.tempers
  closed := (closed_tempers P ho).stage
  prepareUnknowns := prepareUnknowns_tempers P
  setUp := setUp_tempers P ho
  writeBack := writeBack_tempers P
  rewind _ c hc hs := ⟨hs.accepted c hc, hs.accepted, hs.nominal⟩

/-- The scales of a block and of its checkpoints are in range, whatever was asked of it. -/
theorem Lived.tempered {b : Block (Exact K) σ n} {kept : List (Checkpoint (Exact K) n)}
    (h : Lived b kept) (ho : b.problem.options.Moderate) :
    b.session.Tempered b.problem.options ∧ ∀ c ∈ kept, c.memory.Tempered b.problem.options := by
  induction h with
  | create h =>
    obtain ⟨_, rfl⟩ := Block.create_eq_ok h
    exact ⟨Session.tempered_fresh ho _, List.forall_mem_nil _⟩
  | @after b kept operation _ ih =>
    rw [b.after_problem operation] at ho ⊢
    obtain ⟨hb, hkept⟩ := ih ho
    have hR := routine_tempers b.problem ho
    refine ⟨hR.after (hR.byMethod (fun _ _ _ hs => hs.of_measures rfl) (closed_tempers b.problem ho))
      (fun hs => ?_) operation hb, hkept⟩
    refine ⟨hs.memory, fun c hc => ?_, hs.nominal⟩
    cases hc
    exact hs.memory
  | notifyEvent _ ih =>
    obtain ⟨hb, hkept⟩ := ih ho
    exact ⟨hb.of_measures rfl, hkept⟩
  | modifyModel _ _ ih =>
    obtain ⟨hb, hkept⟩ := ih ho
    exact ⟨hb.of_measures rfl, hkept⟩
  | teardown _ ih =>
    obtain ⟨hb, hkept⟩ := ih ho
    exact ⟨.of_fresh ho rfl hb.nominal, hkept⟩
  | checkpoint _ ih =>
    obtain ⟨hb, hkept⟩ := ih ho
    exact ⟨hb, List.forall_mem_cons.2 ⟨hb.memory, hkept⟩⟩
  | @restore b kept c _ hc ih =>
    rw [Block.restore_eq] at ho ⊢
    obtain ⟨hb, hkept⟩ := ih ho
    exact ⟨⟨hkept c hc, hb.accepted, hb.nominal⟩, hkept⟩

/-! ## The mark for poor scaling -/

/-- The session without the mark that its residual scales must be computed anew. -/
def Session.unforced (s : Session (Exact K) σ n) : Session (Exact K) σ n :=
  { s with work := { s.work with flags.forceRescaling := false } }

/-- The raw scales that an update of the residual scales starts from: ones where none are asked
for. -/
def askedScales (P : Problem (Exact K) σ n) : Action (Exact K) σ n (Option (Vector (Exact K) n)) :=
  if P.options.residualScaling = .none then pure (some (Vector.replicate n 1)) else rawScales P

/-- An update of the residual scales of `s` ends in `t`, and computed them anew from raw ones. -/
def ScalesTaken (P : Problem (Exact K) σ n) (s t : Session (Exact K) σ n)
    (raw : Vector (Exact K) n) : Prop :=
  updateResidualScales P s = .ok () t ∧ ∃ u, askedScales P s.unforced = .ok (some raw) u

omit [IsStrictOrderedRing K] in
theorem storeScale_poorly {raw : Vector (Exact K) n} {i : Fin n}
    (h : storeScale o raw i s = .ok () t) :
    t.work.flags.poorlyScaled = true ↔ s.work.flags.poorlyScaled = true ∨
      (clampScale raw[i] o.leastScale o.greatestScale).2 = true := by
  unfold storeScale at h
  dsimp only at h
  split at h
  · next hclamped =>
    cases h
    exact ⟨fun _ => .inr hclamped, fun _ => rfl⟩
  · next hclamped =>
    cases h
    exact ⟨.inl, fun h => h.resolve_right hclamped⟩

omit [IsStrictOrderedRing K] in
theorem forM_storeScale_poorly {raw : Vector (Exact K) n} {l : List (Fin n)}
    (h : l.forM (storeScale o raw) s = .ok () t) :
    t.work.flags.poorlyScaled = true ↔ s.work.flags.poorlyScaled = true ∨
      ∃ i ∈ l, (clampScale raw[i] o.leastScale o.greatestScale).2 = true := by
  induction l generalizing s with
  | nil =>
    cases h
    simp
  | cons j l ih =>
    obtain ⟨_, u, hu, h⟩ := bind_eq_ok.1 h
    rw [ih h, storeScale_poorly hu, List.exists_mem_cons_iff, or_assoc]

omit [IsStrictOrderedRing K] in
/-- Looking at the condition leaves the scales and the mark alone. -/
theorem checkCondition_ok (h : checkCondition P s = .ok () t) :
    t.work.residualScale = s.work.residualScale ∧
      t.work.flags.poorlyScaled = s.work.flags.poorlyScaled := by
  unfold checkCondition at h
  rw [get_bind_apply] at h
  dsimp only at h
  split at h
  · split at h
    · rw [notify_bind_apply] at h
      split at h
      · cases h
        exact ⟨rfl, rfl⟩
      · cases h
        exact ⟨rfl, rfl⟩
    · split at h
      · cases h
        exact ⟨rfl, rfl⟩
      · cases h
        exact ⟨rfl, rfl⟩
  · cases h
    exact ⟨rfl, rfl⟩

omit [IsStrictOrderedRing K] in
/-- An update that computes the residual scales anew marks the block as poorly scaled exactly when
some raw scale had to be changed. -/
theorem poorlyScaled_iff {raw : Vector (Exact K) n} (h : ScalesTaken P s t raw) :
    t.work.flags.poorlyScaled = true ↔ ∃ i : Fin n, t.work.residualScale[i] ≠ raw[i] := by
  obtain ⟨hupdate, u, hasked⟩ := h
  unfold updateResidualScales at hupdate
  rw [modifyWork_bind_apply] at hupdate
  unfold askedScales at hasked
  split at hupdate
  · next hmode =>
    rw [if_pos hmode] at hasked
    cases hasked
    cases hupdate
    exact ⟨nofun, fun ⟨_, hi⟩ => absurd rfl hi⟩
  · next hmode =>
    rw [if_neg hmode] at hasked
    obtain ⟨answer, v, hanswer, hupdate⟩ := bind_eq_ok.1 hupdate
    have hsame : EStateM.Result.ok answer v = .ok (some raw) u := hanswer.symm.trans hasked
    cases hsame
    obtain ⟨_, v, hcleared, hupdate⟩ := bind_eq_ok.1 hupdate
    cases hcleared
    obtain ⟨_, w, hstore, hcheck⟩ := bind_eq_ok.1 hupdate
    obtain ⟨hscales, hmark⟩ := checkCondition_ok hcheck
    rw [hscales, hmark, forM_storeScale_poorly hstore]
    simp only [Bool.false_eq_true, false_or, List.mem_finRange, true_and]
    refine exists_congr fun i => ?_
    rw [forM_storeScale_ok hstore i, if_pos (List.mem_finRange i), clampScale_changed]

/-- Whatever is asked of a block and whatever its model answers, its scales and those of its
checkpoints stay in range; and an update that computes the residual scales anew marks the block as
poorly scaled exactly when some raw scale had to be changed. -/
theorem scales_in_range {b : Block (Exact K) σ n} {kept : List (Checkpoint (Exact K) n)}
    (hb : Lived b kept) (ho : b.problem.options.Moderate) :
    b.session.work.toMemory.Tempered b.problem.options ∧
      (∀ c ∈ kept, c.memory.Tempered b.problem.options) ∧
      ∀ s t raw, ScalesTaken b.problem s t raw →
        (t.work.flags.poorlyScaled = true ↔ ∃ i : Fin n, t.work.residualScale[i] ≠ raw[i]) :=
  have hscales := hb.tempered ho
  ⟨hscales.1.memory, hscales.2, fun _ _ _ => poorlyScaled_iff⟩

end

/-! ## Blocks of rational numbers -/

/-- A block with a residual that hardly changes. -/
def faintBlock : Block (Exact ℚ) Unit 1 :=
  Block.pointwise Options.standard #v[1] fun x => .ok (x.map fun x => 1e-20 * (x - 2))

theorem faintBlock_lived : Lived faintBlock.solve.2 [faintBlock.solve.2.checkpoint] :=
  have hcreate : Lived faintBlock [] :=
    @Lived.create (Exact ℚ) Unit _ 1 "loop" faintBlock.problem.model () Options.standard 0
      .continuous faintBlock rfl
  (hcreate.after .solve).checkpoint

theorem moderate_standard : (Options.standard : Options (Exact ℚ)).Moderate where
  positive := by decide +kernel
  finite := by decide +kernel
  aboveZero := by decide +kernel
  least := by decide +kernel
  greatest := by decide +kernel
  bounded := by decide +kernel
  manual _ h := by cases h

set_option maxRecDepth 100000 in
/-- Its residual scale would be too large and is clamped, which the mark tells. -/
theorem scales_in_range_faint :
    let b := faintBlock.solve.2
    b.session.work.toMemory.Tempered Options.standard ∧
      b.checkpoint.memory.Tempered Options.standard ∧
      ∃ t raw, ScalesTaken b.problem b.session t raw ∧ t.work.flags.poorlyScaled = true ∧
        ∃ i : Fin 1, t.work.residualScale[i] ≠ raw[i] := by
  intro b
  have hproblem : b.problem = faintBlock.problem := Block.perform_problem _ _
  have hoptions : b.problem.options = Options.standard := by
    rw [hproblem]
    rfl
  obtain ⟨hmemory, hkept, hmark⟩ :=
    scales_in_range faintBlock_lived (by rw [hoptions]; exact moderate_standard)
  rw [hoptions] at hmemory hkept
  have hupdate : comesTo (askedScales b.problem) b.session.unforced (fun raw _ => match raw with
      | none => false
      | some _ => comesTo (updateResidualScales b.problem) b.session
          fun _ t => t.work.flags.poorlyScaled) = true := by decide +kernel
  obtain ⟨answer, u, hasked, hupdate⟩ := exists_of_comesTo hupdate
  cases answer with
  | none => cases hupdate
  | some raw =>
    obtain ⟨_, t, hrun, hpoorly⟩ := exists_of_comesTo hupdate
    have htaken : ScalesTaken b.problem b.session t raw := ⟨hrun, u, hasked⟩
    exact ⟨hmemory, hkept _ List.mem_cons_self, t, raw, htaken, hpoorly,
      (hmark _ t raw htaken).1 hpoorly⟩

/-- A block without a limit to its tolerance. -/
def laxBlock : Block (Exact ℚ) Unit 1 :=
  Block.pointwise { Options.standard with tolerance := infinity } #v[1] .ok

set_option maxRecDepth 100000 in
/-- Where the tolerance is infinite, so is the least magnitude, and the scale of an unknown is
zero. -/
theorem variableScale_zero :
    let b := laxBlock.evaluateJacobian.2
    let o := laxBlock.problem.options
    Lived b [] ∧ b.problem.options = o ∧ 0 < o.tolerance ∧ 0 < o.leastScale ∧ o.leastScale ≤ 1 ∧
      1 ≤ o.greatestScale ∧ o.greatestScale < infinity ∧
      (∀ magnitudes, o.variableScaling ≠ .manual magnitudes) ∧
      ¬ (0 : Exact ℚ) < getElem b.session.work.variableScale 0 Nat.zero_lt_one := by
  intro b o
  have hcreate : Lived laxBlock [] :=
    @Lived.create (Exact ℚ) Unit _ 1 "loop" laxBlock.problem.model () laxBlock.problem.options 0
      .continuous laxBlock rfl
  have hproblem : b.problem = laxBlock.problem := Block.perform_problem _ _
  exact ⟨hcreate.after .evaluateJacobian, congrArg Problem.options hproblem, by decide +kernel,
    by decide +kernel, by decide +kernel, by decide +kernel, by decide +kernel, nofun,
    by decide +kernel⟩

end AlgebraicLoop
