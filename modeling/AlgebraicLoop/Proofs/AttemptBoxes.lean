import AlgebraicLoop.Proofs.FactorsInUse
import AlgebraicLoop.Proofs.HeldRuns

/-!
# The box of an attempt

The box that the steps of an attempt are kept in is set up once, from the bounds a block has then.
Whatever was asked of the block, its bounds are the same when an attempt starts, so the box is still
made of them.

* `Session.Boxed`: a block whose box is made of its bounds, once it has been set up;
* `Launch.contained`: every attempt of a solve that starts inside the bounds starts inside its box.
-/

namespace AlgebraicLoop
set_option autoImplicit false

open Exact

section
variable {K : Type} [Field K] [LinearOrder K] [SquareRoot K] {σ : Type} {n : Nat}
  {P : Problem (Exact K) σ n} {s t : Session (Exact K) σ n}

/-! ## Set up once -/

/-- A started block whose box, once it has been set up, is made of its bounds. -/
structure Session.Boxed (P : Problem (Exact K) σ n) (s : Session (Exact K) σ n) : Prop where
  started : s.phase ≠ .untouched
  box : s.work.ready = true →
    s.work.box.blank = (Box.ofBounds s.lower s.upper P.options.stepLimitFactor).blank

theorem lasting_boxed (P : Problem (Exact K) σ n) : Lasting P (Session.Boxed P) where
  started _ hs := hs.started
  light s t h hs := by
    have hphase : t.phase = s.phase := congrArg Prod.fst h.stage
    have hlower : t.lower = s.lower := congrArg Prod.fst h.given
    have hupper : t.upper = s.upper := congrArg (fun p => p.2.1) h.given
    have hbox : t.work.box = s.work.box := congrArg Prod.fst h.box
    have hready : t.work.ready = s.work.ready := congrArg (fun p => p.2.2) h.box
    exact ⟨by rw [hphase]; exact hs.started, by rw [hlower, hupper, hbox, hready]; exact hs.box⟩
  setting s t h hphase hs := by
    have hlower : t.lower = s.lower := congrArg Setting.lower h
    have hupper : t.upper = s.upper := congrArg Setting.upper h
    have hbox : t.work.box.blank = s.work.box.blank := congrArg Setting.box h
    have hready : t.work.ready = s.work.ready := congrArg Setting.ready h
    exact ⟨hphase, by rw [hlower, hupper, hbox, hready]; exact hs.box⟩
  setUp _ := after_setUp (fun _ => id) fun _ hs => ⟨hs.started, fun _ => rfl⟩
  rewind _ _ _ hs := ⟨hs.started, hs.box⟩

/-- A block that has been set up stays so. -/
theorem lasting_ready (P : Problem (Exact K) σ n) :
    Lasting P fun s => s.Boxed P ∧ s.work.ready = true where
  started _ hs := hs.1.started
  light s t h hs :=
    ⟨(lasting_boxed P).light s t h hs.1, (congrArg (fun p => p.2.2) h.box).trans hs.2⟩
  setting s t h hphase hs :=
    ⟨(lasting_boxed P).setting s t h hphase hs.1, (congrArg Setting.ready h).trans hs.2⟩
  setUp _ :=
    after_setUp (fun hready hs => ⟨hs.1, hready⟩) fun _ hs => ⟨⟨hs.1.started, fun _ => rfl⟩, rfl⟩
  rewind s c hc hs := ⟨(lasting_boxed P).rewind s c hc hs.1, hs.2⟩

theorem setUp_boxed {first : Bool} (hs : s.Boxed P) (h : setUp P s = .ok first t) :
    t.Boxed P ∧ t.work.ready = true := by
  have hafter : After (setUp P) s (fun _ t => t.work.ready = true) fun _ _ => True :=
    after_setUp (fun hready => hready) fun _ => rfl
  exact ⟨(lasting_boxed P).setUp.ok h hs, hafter.ok h⟩

/-! ## In every solve -/

theorem Launch.boxed {tol : Tolerances (Exact K)} {descent : Bool} (hs : s.Boxed P)
    (h : Launch P s tol descent t) : t.Boxed P ∧ t.work.ready = true := by
  have hI := lasting_ready P
  have hC := hI.closed
  have keep : ∀ {u v : Session (Exact K) σ n}, u.Boxed P ∧ u.work.ready = true →
      v.setting P = u.setting P → v.phase = u.phase → v.Boxed P ∧ v.work.ready = true :=
    fun hu hset hphase => hI.setting _ _ hset (by rw [hphase]; exact hu.1.started) hu
  have opened : ∀ {first : Bool} {u : Session (Exact K) σ n}, openSolve P s = .ok first u →
      u.Boxed P ∧ u.work.ready = true := by
    intro first u hu
    obtain ⟨first, v, hv, hu⟩ := bind_eq_ok.1 hu
    rw [modify_bind_apply] at hu
    exact (hI.routine.openFrom first).ok hu (keep (setUp_boxed hs hv) rfl rfl)
  have tried : ∀ {standing : Standing (Exact K)} {u v : Session (Exact K) σ n},
      firstAttempt P u = .ok standing v → u.Boxed P ∧ u.work.ready = true →
      v.Boxed P ∧ v.work.ready = true := fun hv =>
        (hC.firstAttempt (fun _ hf s => hf s s) hI.routine.lineSearch).ok hv
  have descended : ∀ {standing opening : Standing (Exact K)} {u v : Session (Exact K) σ n},
      tryDescent P standing u = .ok opening v → u.Boxed P ∧ u.work.ready = true →
      v.Boxed P ∧ v.work.ready = true := fun hv =>
    (hC.stage.tryDescent hI.routine.lineSearch _).ok hv
  cases h with
  | first hu => exact keep (opened hu) rfl rfl
  | descent hu hv _ => exact keep (tried hv (opened hu)) rfl rfl
  | @rescaled _ _ opening _ _ w y hu hv hw _ _ hy =>
    have hnoticed : ({ w with notices := opening.rescalingNotices w.notices } :
        Session (Exact K) σ n).Boxed P ∧ w.work.ready = true :=
      keep (descended hw (tried hv (opened hu))) rfl rfl
    exact keep (hC.stage.spot.updateResidualScales.ok hy hnoticed) rfl rfl
  | nominal hu hv hw hy _ _ =>
    exact keep ((hC.tryRescaled hI.routine.lineSearch _ _).ok hy
      (descended hw (tried hv (opened hu)))) rfl rfl

theorem prepareUnknowns_boxed
    (hs : s.Boxed P ∨ s.phase = .untouched ∧ s.work.ready = false) :
    After (prepareUnknowns P) s (fun _ t => t.Boxed P)
      fun _ t => t.Boxed P ∨ t.phase = .untouched ∧ t.work.ready = false := by
  obtain hs | ⟨hphase, hready⟩ := hs
  · exact ((lasting_boxed P).prepareUnknowns s).mono (fun _ _ _ h => h hs)
      fun _ _ _ h => .inl (h hs)
  · refine (prepareUnknowns_untouched P hphase).mono (fun _ t _ h => ⟨?_, fun ht => ?_⟩)
      fun _ t _ h => .inr ⟨h.phase.trans hphase, by rw [h.work]; exact hready⟩
    · rw [h.phase]
      exact Phase.noConfusion
    · rw [h.work, hready] at ht
      cases ht

/-- Between its operations a block has started, or nothing was derived from start values. -/
theorem Lived.boxed {b : Block (Exact K) σ n} {kept : List (Checkpoint (Exact K) n)}
    (h : Lived b kept) : b.session.Boxed b.problem ∨
      b.session.phase = .untouched ∧ b.session.work.ready = false := by
  induction h with
  | create h =>
    obtain ⟨_, rfl⟩ := Block.create_eq_ok h
    exact .inr ⟨rfl, rfl⟩
  | @after b kept operation _ ih =>
    rw [Block.after_problem]
    by_cases hop : operation = .completedOuterStep
    · subst hop
      exact ih.imp (fun h => ⟨h.started, h.box⟩) id
    · exact (lasting_boxed b.problem).after (fun _ => .inl) (fun k => prepareUnknowns_boxed
        (ih.imp (fun h => ⟨h.started, h.box⟩) id)) ih hop
  | notifyEvent _ ih => exact ih.imp (fun h => ⟨h.started, h.box⟩) id
  | modifyModel _ _ ih => exact ih.imp (fun h => ⟨h.started, h.box⟩) id
  | teardown _ ih =>
    exact ih.imp (fun h => ⟨h.started, fun hready => nomatch hready⟩) fun h => ⟨h.1, rfl⟩
  | checkpoint _ ih => exact ih
  | @restore b kept c _ _ ih =>
    rw [Block.restore_eq]
    exact ih.imp (fun h => ⟨h.started, h.box⟩) id

/-- In the attempts of a solve a point inside the bounds is one inside the box. -/
theorem Launch.contained {b : Block (Exact K) σ n} {kept : List (Checkpoint (Exact K) n)}
    {tol : Tolerances (Exact K)} {descent : Bool} (hb : Lived b kept)
    (hs : prelude b.problem b.session = .ok () s) (h : Launch b.problem s tol descent t)
    (hinside : t.Inside) : t.Contained b.problem := by
  unfold prelude at hs
  rw [modify_bind_apply] at hs
  obtain ⟨_, u, hu, hs⟩ := bind_eq_ok.1 hs
  have hbegun : u.Boxed b.problem := by
    refine (prepareUnknowns_boxed ?_).ok hu
    exact hb.boxed.imp (fun h => ⟨h.started, h.box⟩) id
  have happroached := (lasting_boxed b.problem).routine.approach.ok hs hbegun
  obtain ⟨hboxed, hready⟩ := h.boxed happroached
  exact ⟨hboxed.box hready, hinside⟩

end

end AlgebraicLoop
