import AlgebraicLoop.Proofs.Success

/-!
# What a bracket tells

A bracket is fed with points one after another and emptied between solves. Whatever came before, its
ends are the points nearest to zero on either side, of those recorded since it was emptied last, and of
equally good ones the first. A solve empties it at its beginning and feeds it with every evaluation.
So a search for a root starts from points of the same solve, and on different sides of zero.

* `Sample.Low`, `Sample.High`, `FirstBest`: the points on either side, and the first best of a kind;
* `Bracket.Tells`: a bracket that stands for a list of points, and what one more point does to it;
* `samplesSince`, `Collects`: the points that a solve evaluates, and its bracket;
* `untilSearch`, `solveAction_untilSearch`: a solve up to its search for a root, and from there on;
* `search_from_current_bracket`: where a search starts from.
-/

namespace AlgebraicLoop
set_option autoImplicit false

section
variable {α : Type} [Scalar α]

/-! ## First best points -/

/-- A finite point with a value that is not positive. -/
def Sample.Low (p : Sample α) : Prop := isFinite p.x = true ∧ isFinite p.f = true ∧ p.f ≤ 0

/-- A finite point with a positive value. -/
def Sample.High (p : Sample α) : Prop := isFinite p.x = true ∧ isFinite p.f = true ∧ 0 < p.f

omit [Scalar α] in
/-- The point is one of a kind that none of the points of that kind beats, and the first of these. -/
def FirstBest (kind : Sample α → Prop) (beats : Sample α → Sample α → Prop)
    (points : List (Sample α)) (p : Sample α) : Prop :=
  ∃ before later, points = before ++ p :: later ∧ kind p ∧
    (∀ q ∈ before, kind q → beats p q) ∧ ∀ q ∈ later, kind q → ¬ beats q p

/-- Which points of a kind beat each other: a matter of their places in some order. -/
structure Ranks (kind : Sample α → Prop) (beats : Sample α → Sample α → Prop) : Prop where
  asymm : ∀ p q, beats p q → ¬ beats q p
  above : ∀ p q r, kind p → kind r → beats q p → ¬ beats r p → beats q r

/-- The end of a bracket is the first best of the points of a kind, if there is one of that kind. -/
structure Keeps (kind : Sample α → Prop) (beats : Sample α → Sample α → Prop)
    (points : List (Sample α)) (o : Option (Sample α)) : Prop where
  best : ∀ p, o = some p → FirstBest kind beats points p
  missing : o = none → ∀ p ∈ points, ¬ kind p

section
omit [Scalar α]
variable {kind : Sample α → Prop} {beats : Sample α → Sample α → Prop} {points : List (Sample α)}
  {o : Option (Sample α)} {p q : Sample α}

theorem FirstBest.mem (h : FirstBest kind beats points p) : p ∈ points ∧ kind p := by
  obtain ⟨before, later, rfl, hp, _⟩ := h
  exact ⟨List.mem_append_right _ List.mem_cons_self, hp⟩

theorem FirstBest.append (h : FirstBest kind beats points p) (hq : kind q → ¬ beats q p) :
    FirstBest kind beats (points ++ [q]) p := by
  obtain ⟨before, later, rfl, hp, hbefore, hlater⟩ := h
  refine ⟨before, later ++ [q], by rw [List.append_assoc, List.cons_append], hp, hbefore, ?_⟩
  intro r hr
  obtain hr | hr := List.mem_append.1 hr
  · exact hlater r hr
  · rw [List.mem_singleton.1 hr]
    exact hq

/-- A best point beats what a point beats that beats it. -/
theorem FirstBest.beaten (hranks : Ranks kind beats) (h : FirstBest kind beats points p)
    (hqp : beats q p) {r : Sample α} (hr : r ∈ points) (hkind : kind r) : beats q r := by
  obtain ⟨before, later, rfl, hp, hbefore, hlater⟩ := h
  obtain hr | hr := List.mem_append.1 hr
  · exact hranks.above p q r hp hkind hqp (hranks.asymm p r (hbefore r hr hkind))
  · obtain rfl | hr := List.mem_cons.1 hr
    · exact hqp
    · exact hranks.above p q r hp hkind hqp (hlater r hr hkind)

theorem FirstBest.unique (h : FirstBest kind beats points p) (h' : FirstBest kind beats points q) :
    p = q := by
  obtain ⟨before, later, rfl, hp, hbefore, hlater⟩ := h
  obtain ⟨before', later', hsplit, hq, hbefore', hlater'⟩ := h'
  obtain ⟨between, rfl, hrest⟩ | ⟨between, rfl, hrest⟩ := List.append_eq_append_iff.1 hsplit
  · cases between with
    | nil => exact (List.cons.inj hrest).1
    | cons r between =>
      obtain ⟨rfl, rfl⟩ := List.cons.inj hrest
      have hpq : ¬ beats q p := hlater q (List.mem_append_right _ List.mem_cons_self) hq
      exact absurd (hbefore' p (List.mem_append_right _ List.mem_cons_self) hp) hpq
  · cases between with
    | nil => exact (List.cons.inj hrest).1.symm
    | cons r between =>
      obtain ⟨rfl, rfl⟩ := List.cons.inj hrest
      have hpq : ¬ beats p q := hlater' p (List.mem_append_right _ List.mem_cons_self) hp
      exact absurd (hbefore q (List.mem_append_right _ List.mem_cons_self) hq) hpq

namespace Keeps

theorem empty : Keeps kind beats [] none := ⟨nofun, fun _ => nofun⟩

/-- A point of another kind, or no better, changes nothing. -/
theorem stay (h : Keeps kind beats points o) (hq : ∀ p, o = some p → kind q → ¬ beats q p)
    (hnone : o = none → ¬ kind q) : Keeps kind beats (points ++ [q]) o where
  best p hp := (h.best p hp).append (hq p hp)
  missing ho r hr := by
    obtain hr | hr := List.mem_append.1 hr
    · exact h.missing ho r hr
    · rw [List.mem_singleton.1 hr]
      exact hnone ho

/-- A better point of the kind takes the place of the one so far. -/
theorem take (hranks : Ranks kind beats) (h : Keeps kind beats points o) (hq : kind q)
    (hbeats : ∀ p, o = some p → beats q p) : Keeps kind beats (points ++ [q]) (some q) where
  best p hp := by
    obtain rfl := Option.some.inj hp
    refine ⟨points, [], rfl, hq, fun r hr hkind => ?_, nofun⟩
    cases ho : o with
    | none => exact absurd hkind (h.missing ho r hr)
    | some p => exact (h.best p ho).beaten hranks (hbeats p ho) hr hkind
  missing := nofun

/-- A point of another kind changes nothing. -/
theorem spare (h : Keeps kind beats points o) (hq : ¬ kind q) :
    Keeps kind beats (points ++ [q]) o := h.stay (fun _ _ hkind => absurd hkind hq) fun _ => hq

/-- A point of the kind is taken exactly if it beats the one so far. -/
theorem offer (hranks : Ranks kind beats) (h : Keeps kind beats points o) (hq : kind q)
    {test : Sample α → Bool} (htest : ∀ p, test p = true ↔ beats q p) :
    Keeps kind beats (points ++ [q]) (if o.all test then some q else o) := by
  split
  · next hall =>
    refine h.take hranks hq fun p hp => ?_
    rw [hp] at hall
    exact (htest p).1 hall
  · next hall =>
    refine h.stay (fun p hp _ hbeats => ?_) fun hnone => ?_
    · rw [hp] at hall
      exact hall ((htest p).2 hbeats)
    · rw [hnone] at hall
      exact absurd rfl hall

theorem best_iff (h : Keeps kind beats points o) :
    o = some p ↔ FirstBest kind beats points p := by
  refine ⟨h.best p, fun hp => ?_⟩
  cases ho : o with
  | none => exact absurd hp.mem.2 (h.missing ho p hp.mem.1)
  | some q => exact congrArg some ((h.best q ho).unique hp)

theorem isSome_iff (h : Keeps kind beats points o) : (∃ p, o = some p) ↔ ∃ p ∈ points, kind p := by
  constructor
  · rintro ⟨p, hp⟩
    exact ⟨p, (h.best p hp).mem⟩
  · rintro ⟨p, hp, hkind⟩
    cases ho : o with
    | none => exact absurd hkind (h.missing ho p hp)
    | some q => exact ⟨q, rfl⟩

end Keeps
end

/-! ## Brackets and the points they stand for -/

/-- The first point has the greater value. -/
def Sample.Above (p q : Sample α) : Prop := q.f < p.f

/-- The first point has the lesser value. -/
def Sample.Below (p q : Sample α) : Prop := p.f < q.f

theorem ranks_low [LawfulScalar α] : Ranks (α := α) Sample.Low Sample.Above where
  asymm _ _ := LawfulScalar.lt_asymm
  above _ _ _ hp hr hqp hrp :=
    LawfulScalar.lt_of_le_of_lt (LawfulScalar.le_of_not_lt (LawfulScalar.real_of_finite _ hp.2.1)
      (LawfulScalar.real_of_finite _ hr.2.1) hrp) hqp

theorem ranks_high [LawfulScalar α] : Ranks (α := α) Sample.High Sample.Below where
  asymm _ _ := LawfulScalar.lt_asymm
  above _ _ _ hp hr hqp hrp :=
    LawfulScalar.lt_of_lt_of_le hqp (LawfulScalar.le_of_not_lt
      (LawfulScalar.real_of_finite _ hr.2.1) (LawfulScalar.real_of_finite _ hp.2.1) hrp)

/-- The ends of the bracket are the best of these points on either side. -/
structure Bracket.Tells (b : Bracket α) (points : List (Sample α)) : Prop where
  below : Keeps Sample.Low Sample.Above points b.below
  above : Keeps Sample.High Sample.Below points b.above

namespace Bracket.Tells
variable {b : Bracket α} {points : List (Sample α)}

theorem empty : ({} : Bracket α).Tells [] := ⟨.empty, .empty⟩

theorem record [LawfulScalar α] (h : b.Tells points) (p : Sample α) :
    (b.record p).Tells (points ++ [p]) := by
  unfold Bracket.record
  split
  · next hinfinite =>
    have hkind : ¬ (isFinite p.x = true ∧ isFinite p.f = true) := by
      rw [← Bool.and_eq_true]
      simpa only [Bool.not_eq_true', Bool.not_eq_true] using hinfinite
    exact ⟨h.below.spare fun hlow => hkind ⟨hlow.1, hlow.2.1⟩,
      h.above.spare fun hhigh => hkind ⟨hhigh.1, hhigh.2.1⟩⟩
  next hfinite =>
  obtain ⟨hx, hf⟩ : isFinite p.x = true ∧ isFinite p.f = true := by simpa using hfinite
  split
  · next hle =>
    have hlow : p.Low := ⟨hx, hf, hle⟩
    have hhigh : ¬ p.High := fun hhigh => LawfulScalar.not_lt_of_le hle hhigh.2.2
    have hbelow := h.below.offer ranks_low hlow fun q => decide_eq_true_iff (p := p.f > q.f)
    split
    · next hbeats =>
      rw [if_pos hbeats] at hbelow
      exact ⟨hbelow, h.above.spare hhigh⟩
    · next hbeats =>
      rw [if_neg hbeats] at hbelow
      exact ⟨hbelow, h.above.spare hhigh⟩
  · next hle =>
    have hpos : 0 < p.f := by
      have hreal := LawfulScalar.real_of_finite _ hf
      refine (LawfulScalar.lt_iff _ _).2 ⟨?_, hle⟩
      exact (LawfulScalar.le_total _ _ LawfulScalar.zero_real hreal).resolve_right hle
    have hhigh : p.High := ⟨hx, hf, hpos⟩
    have hlow : ¬ p.Low := fun hlow => hle hlow.2.2
    have habove := h.above.offer ranks_high hhigh fun q => decide_eq_true_iff (p := p.f < q.f)
    split
    · next hbeats =>
      rw [if_pos hbeats] at habove
      exact ⟨h.below.spare hlow, habove⟩
    · next hbeats =>
      rw [if_neg hbeats] at habove
      exact ⟨h.below.spare hlow, habove⟩

theorem foldl [LawfulScalar α] (h : b.Tells points) (new : List (Sample α)) :
    (new.foldl Bracket.record b).Tells (points ++ new) := by
  induction new generalizing b points with
  | nil => rwa [List.append_nil]
  | cons p new ih =>
    rw [List.append_cons]
    exact ih (h.record p)

theorem interval_iff (h : b.Tells points) :
    (∃ low high, b.interval? = some (low, high)) ↔
      (∃ p ∈ points, p.Low) ∧ ∃ p ∈ points, p.High := by
  rw [← h.below.isSome_iff, ← h.above.isSome_iff]
  unfold Bracket.interval?
  constructor
  · rintro ⟨low, high, hinterval⟩
    split at hinterval
    · next hlow hhigh => exact ⟨⟨_, hlow⟩, _, hhigh⟩
    · cases hinterval
  · rintro ⟨⟨low, hlow⟩, high, hhigh⟩
    exact ⟨low, high, by rw [hlow, hhigh]⟩

end Bracket.Tells

/-- A call to a bracket. -/
inductive BracketCall (α : Type) where
  | record (p : Sample α)
  | clear

/-- A bracket after one more call. -/
def Bracket.call (b : Bracket α) : BracketCall α → Bracket α
  | .record p => b.record p
  | .clear => {}

/-- The points recorded since the last clear, after one more call. -/
def BracketCall.points (points : List (Sample α)) : BracketCall α → List (Sample α)
  | .record p => points ++ [p]
  | .clear => []

theorem Bracket.Tells.calls [LawfulScalar α] {b : Bracket α} {points : List (Sample α)}
    (h : b.Tells points) (calls : List (BracketCall α)) :
    (calls.foldl Bracket.call b).Tells (calls.foldl BracketCall.points points) := by
  induction calls generalizing b points with
  | nil => exact h
  | cons c calls ih =>
    cases c with
    | record p => exact ih (h.record p)
    | clear => exact ih .empty

end

/-! ## The points that a solve evaluates -/

/-- The point and its value that a call to the model gave. -/
def Call.sample? {α : Type} [Scalar α] {n : Nat} : Call α n → Option (Sample α)
  | .evaluate x (.ok f) => if allFinite f then sampleOf? x f else none
  | _ => none

section
variable {α σ : Type} [Scalar α] {n : Nat} {P : Problem α σ n} {s t u : Session α σ n}

/-- The points that were evaluated between two sessions, in order. -/
def samplesSince (s t : Session α σ n) : List (Sample α) := (callsSince s t).filterMap Call.sample?

theorem sampled_of_mem {p : Sample α} (h : p ∈ samplesSince s t) : Sampled s t p := by
  obtain ⟨call, hcall, hp⟩ := List.mem_filterMap.1 h
  cases call with
  | evaluate x answer =>
    cases answer with
    | error _ => cases hp
    | ok f =>
      change (if allFinite f then sampleOf? x f else none) = some p at hp
      split at hp
      · next hf => exact ⟨x, f, ⟨hcall, hf⟩, hp⟩
      · cases hp
  | _ => cases hp

/-- A session that follows on another: what was asked before stays on record, and the bracket has
taken note of every point that was evaluated. -/
structure Collects (s t : Session α σ n) : Prop where
  calls : t.calls.toList = s.calls.toList ++ callsSince s t
  bracket : t.bracket = (samplesSince s t).foldl Bracket.record s.bracket

/-- A session that follows on another without a point that was evaluated. -/
structure Idles (s t : Session α σ n) : Prop where
  calls : t.calls.toList = s.calls.toList ++ callsSince s t
  samples : samplesSince s t = []

theorem samplesSince_trans (hst : t.calls.toList = s.calls.toList ++ callsSince s t)
    (htu : u.calls.toList = t.calls.toList ++ callsSince t u) :
    samplesSince s u = samplesSince s t ++ samplesSince t u := by
  unfold samplesSince
  rw [callsSince_trans hst htu, List.filterMap_append]

omit [Scalar α] in
theorem calls_trans (hst : t.calls.toList = s.calls.toList ++ callsSince s t)
    (htu : u.calls.toList = t.calls.toList ++ callsSince t u) :
    u.calls.toList = s.calls.toList ++ callsSince s u := by
  rw [callsSince_trans hst htu, ← List.append_assoc, ← hst, ← htu]

theorem samplesSince_of_calls (new : List (Call α n))
    (h : t.calls.toList = s.calls.toList ++ new) :
    t.calls.toList = s.calls.toList ++ callsSince s t ∧
      samplesSince s t = new.filterMap Call.sample? := by
  unfold samplesSince
  rw [callsSince_of_eq h]
  exact ⟨h, rfl⟩

namespace Idles

theorem of_calls (h : t.calls = s.calls) : Idles s t := by
  obtain ⟨hcalls, hsamples⟩ := samplesSince_of_calls (s := s) (t := t) [] (by simp [h])
  exact ⟨hcalls, hsamples⟩

theorem of_call {call : Call α n} (h : t.calls = s.calls.push call) (hcall : call.sample? = none) :
    Idles s t := by
  obtain ⟨hcalls, hsamples⟩ := samplesSince_of_calls (s := s) (t := t) [call] (by simp [h])
  exact ⟨hcalls, by rw [hsamples, List.filterMap_cons_none hcall, List.filterMap_nil]⟩

theorem trans (hst : Idles s t) (htu : Idles t u) : Idles s u :=
  ⟨calls_trans hst.calls htu.calls, by
    rw [samplesSince_trans hst.calls htu.calls, hst.samples, htu.samples, List.append_nil]⟩

theorem collects (h : Idles s t) (hbracket : t.bracket = s.bracket) : Collects s t :=
  ⟨h.calls, by rw [h.samples, List.foldl_nil, hbracket]⟩

end Idles

namespace Collects

theorem of_eq (hcalls : t.calls = s.calls) (hbracket : t.bracket = s.bracket) : Collects s t :=
  (Idles.of_calls hcalls).collects hbracket

theorem refl (s : Session α σ n) : Collects s s := of_eq rfl rfl

theorem trans (hst : Collects s t) (htu : Collects t u) : Collects s u :=
  ⟨calls_trans hst.calls htu.calls, by
    rw [samplesSince_trans hst.calls htu.calls, List.foldl_append, ← hst.bracket, htu.bracket]⟩

end Collects

theorem collects_evaluate (hP : P.options.refineBracket = true) (x : Vector α n) :
    Follows Collects (evaluate P x) := by
  intro s
  refine after_evaluate (fun _ h => ?_) (fun _ h => ?_) (fun f i h hf => ?_) fun f h hf => ?_
  · exact (Idles.of_call rfl (by rw [h]; rfl)).collects rfl
  · exact (Idles.of_call rfl (by rw [h]; rfl)).collects rfl
  · refine (Idles.of_call rfl ?_).collects rfl
    rw [h]
    exact if_neg (by rw [hf]; exact Bool.false_ne_true)
  · obtain ⟨hcalls, hsamples⟩ := samplesSince_of_calls (s := s)
      (t := { s.asked P x with bracket := noteSample P x f s.bracket })
      [.evaluate x (P.model.evaluate x s.model).1] (by simp [Session.asked])
    refine ⟨hcalls, ?_⟩
    have hsample : Call.sample? (.evaluate x (P.model.evaluate x s.model).1) = sampleOf? x f := by
      rw [h]
      exact if_pos hf
    rw [hsamples]
    change noteSample P x f s.bracket = _
    unfold noteSample
    rw [if_pos hP]
    cases hpoint : sampleOf? x f with
    | none => rw [List.filterMap_cons_none (hsample.trans hpoint), List.filterMap_nil, List.foldl_nil]
    | some p =>
      rw [List.filterMap_cons_some (hsample.trans hpoint), List.filterMap_nil, List.foldl_cons,
        List.foldl_nil]

theorem collects_request {β : Type} (request : Answer σ β) (kind : Request)
    (record : Except EvalFailure β → Call α n) (hrecord : ∀ answer, (record answer).sample? = none) :
    Follows Collects (ask request record >>= settleAnswer kind) :=
  follows_request fun _ => (Idles.of_call rfl (hrecord _)).collects rfl

theorem collects_updateAuxiliary (P : Problem α σ n) (x : Vector α n) :
    Follows (fun s t => Idles s t ∧ t.bracket = s.bracket) (updateAuxiliary P x) :=
  follows_updateAuxiliary fun _ _ => ⟨Idles.of_call rfl rfl, rfl⟩

/-- Every part of an attempt takes note of the points it evaluates. -/
theorem closed_collects (hP : P.options.refineBracket = true) {γ : Type}
    (keep : Session α σ n → γ) : Closed P true keep fun _ a => Follows Collects a where
  value _ s := Collects.refl s
  seq ha hf := ha.bind (fun _ _ _ hst htu => hst.trans htu) hf
  read _ hf s := hf s s
  residualNominals _ hf s := hf s s
  update hg s := Collects.of_eq (congrArg Ledger.calls (hg.silent s))
    (congrArg Ledger.bracket (hg.silent s))
  notice _ _ := Collects.of_eq rfl rfl
  residual := collects_evaluate hP
  written _ _ _ _ hstore s := hstore _ s
  jacobian _ _ _ _ := collects_request _ _ _ fun _ => rfl
  directional _ _ _ _ := collects_request _ _ _ fun _ => rfl
  auxiliary x s := (collects_updateAuxiliary P x s).mono (fun _ _ _ h => h.1.collects h.2)
    fun _ _ _ h => h.1.collects h.2
  limit _ _ _ := Collects.of_eq rfl rfl

/-! ## Up to the search -/

theorem idles_prepareUnknowns (P : Problem α σ n) : Follows Idles (prepareUnknowns P) :=
  follows_prepareUnknowns (fun _ => .of_calls rfl) (fun _ _ _ => .of_call rfl rfl) fun _ _ =>
    .of_call rfl rfl

/-- What comes before the method of a solve evaluates no point. -/
theorem idles_prelude (P : Problem α σ n) : Follows Idles (prelude P) :=
  follows_prelude (fun _ => .of_calls rfl) (fun _ _ _ => .trans) (fun _ => .of_calls rfl)
    (idles_prepareUnknowns P) (fun _ _ => .of_calls rfl) fun x s =>
      (collects_updateAuxiliary P x s).mono (fun _ _ _ h => h.1) fun _ _ _ h => h.1

section
variable (hP : P.options.refineBracket = true)
include hP

theorem collects_settlePoint (first : Bool) : Follows Collects (settlePoint P first) := by
  have hC := closed_collects hP (Session.setting P)
  refine hC.seq (fun s => Collects.of_eq rfl rfl) fun _ s => ?_
  rw [after_congr (get_bind_apply _ _)]
  split
  · exact hC.seq hC.stage.spot.updateResidualScales (fun _ => hC.value _) s
  · exact Collects.refl s

theorem collects_checkStartingPoint : Follows Collects (checkStartingPoint P) :=
  follows_checkStartingPoint Collects.refl (fun _ _ _ => .trans) (collects_evaluate hP)
    (fun _ _ => .of_eq rfl rfl) fun _ _ => .of_eq rfl rfl

/-- An opening empties the bracket and evaluates points only after that. -/
theorem openSolve_collects {first : Bool} (h : openSolve P s = .ok first t) :
    ∃ v : Session α σ n, Idles s v ∧ v.bracket = {} ∧ Collects v t := by
  have hsettles := collects_settlePoint hP (σ := σ) (n := n)
  cases hready : s.work.ready with
  | false =>
    rw [openSolve_unready P hready] at h
    have hchecks := (closed_collects hP (Session.setting P)).seq (collects_checkStartingPoint hP)
      fun _ => hsettles true
    exact ⟨(s.derived P).emptied, .of_calls rfl, rfl, hchecks.ok h⟩
  | true =>
    cases hresumed : resumed? P s with
    | none =>
      rw [openSolve_stays hready hresumed] at h
      exact ⟨s.emptied, .of_calls rfl, rfl, (hsettles false).ok h⟩
    | some c =>
      rw [openSolve_goes hresumed] at h
      exact ⟨s.emptied.rewound c, .of_calls rfl, rfl, (hsettles false).ok h⟩

end

/-- A solve by the damped method up to its search for a root. -/
def untilSearch (P : Problem α σ n) : Action α σ n (Bool × Attempt α) := do
  prelude P
  let first ← openSolve P
  modifyWork fun w => { w with firstAttempt := true, retrying := false }
  let attempt ← runDamped P (P.options.firstTolerances n) false
  modifyWork fun w => { w with firstAttempt := false }
  pure (first, attempt)

/-- What is made of the outcome of a search. -/
def concludeSearch (h : n = 1) (attempt : Attempt α) :
    Except Mishap (RootFound α) → Action α σ n (Attempt α × Bool)
  | .error _ => pure (attempt, false)
  | .ok found => do
    if found.converged then do
      moveToRoot found.point found.iterations
      pure (refinedAttempt (← get).work h found.point attempt, true)
    else pure (attempt, false)

/-- The rest of a solve by the damped method. -/
def afterSearch (P : Problem α σ n) (first : Bool) (attempt : Attempt α) :
    Attempt α × Bool → Action α σ n (Report α) := fun (refinement, refined) => do
  let tol := P.options.firstTolerances n
  let standing ← tryDescent P ⟨refinement, { Report.empty.add attempt with refined }, tol.step⟩
  let standing ← tryRescaled P first standing
  let standing ← tryNominal P standing
  closeSolve P standing

theorem untilSearch_ok {first : Bool} {attempt : Attempt α}
    (h : untilSearch P s = .ok (first, attempt) t) :
    ∃ u v w, prelude P s = .ok () u ∧ openSolve P u = .ok first v ∧
      runDamped P (P.options.firstTolerances n) false
        { v with work := { v.work with firstAttempt := true, retrying := false } } =
          .ok attempt w ∧
      t = { w with work := { w.work with firstAttempt := false } } := by
  obtain ⟨_, u, hprelude, h⟩ := bind_eq_ok.1 h
  obtain ⟨_, v, hopen, h⟩ := bind_eq_ok.1 h
  rw [modifyWork_bind_apply] at h
  obtain ⟨_, w, hrun, h⟩ := bind_eq_ok.1 h
  rw [modifyWork_bind_apply] at h
  cases h
  exact ⟨u, v, w, hprelude, hopen, hrun, rfl⟩

/-- A solve that has come to its refinement goes on with it. -/
theorem solveAction_untilSearch (hmethod : P.options.method = .damped) {first : Bool}
    {attempt : Attempt α} (h : untilSearch P s = .ok (first, attempt) t) :
    solveAction P s =
      thenAlways (refineAttempt P attempt >>= afterSearch P first attempt) Session.unmarked t := by
  obtain ⟨u, v, w, hprelude, hopen, hrun, rfl⟩ := untilSearch_ok h
  have hrest : solveByMethod P u = (refineAttempt P attempt >>= afterSearch P first attempt)
      { w with work := { w.work with firstAttempt := false } } := by
    rw [solveByMethod_damped hmethod]
    unfold solveDamped firstAttempt
    simp only [bind_assoc]
    rw [bind_ok hopen, modifyWork_bind_apply, bind_ok hrun, modifyWork_bind_apply]
    rfl
  rw [solveAction_eq, bind_ok hprelude]
  unfold thenAlways
  rw [hrest]

/-- A solve that has come to the search for a root hands it the ends of its bracket. -/
theorem refineAttempt_search (hP : P.options.refineBracket = true) (h : n = 1)
    {attempt : Attempt α} {below above : Sample α} (hends : t.bracket.interval? = some (below, above)) :
    refineAttempt P attempt t =
      ((findRoot (evaluateSingle P h) below above 0).run >>= concludeSearch h attempt) t := by
  unfold refineAttempt refineRoot
  rw [if_pos hP, dif_pos h, get_bind_apply, hends]
  rfl

/-- The bracket that a search starts from comes from all points evaluated in the same solve. -/
theorem untilSearch_tells [LawfulScalar α] (hP : P.options.refineBracket = true) {first : Bool}
    {attempt : Attempt α} (h : untilSearch P s = .ok (first, attempt) t) :
    t.bracket.Tells (samplesSince s t) := by
  obtain ⟨u, v, w, hprelude, hopen, hrun, rfl⟩ := untilSearch_ok h
  have hC := closed_collects hP (Session.stage P)
  obtain ⟨e, hidle, hempty, hev⟩ := openSolve_collects hP hopen
  have hsearch : ∀ x f step length tol, Follows Collects (lineSearch P x f step length tol) :=
    fun x f step length tol => hC.lineSearch (fun s => Collects.refl s) x f step length tol
  have hvw : Collects v w := (Collects.of_eq rfl rfl : Collects v { v with
    work := { v.work with firstAttempt := true, retrying := false } }).trans
      ((hC.runDamped hsearch _ false).ok hrun)
  have hew : Collects e { w with work := { w.work with firstAttempt := false } } :=
    (hev.trans hvw).trans (Collects.of_eq rfl rfl)
  have hse := ((idles_prelude P).ok hprelude).trans hidle
  rw [samplesSince_trans hse.calls hew.calls, hse.samples, List.nil_append, hew.bracket, hempty]
  exact Bracket.Tells.empty.foldl _

omit [Scalar α] in
theorem Bracket.interval?_eq (b : Bracket α) {low high : Sample α} :
    b.interval? = some (low, high) ↔ b.below = some low ∧ b.above = some high := by
  unfold Bracket.interval?
  cases b.below with
  | none => exact ⟨nofun, fun h => nomatch h.1⟩
  | some p =>
    cases b.above with
    | none => exact ⟨nofun, fun h => nomatch h.2⟩
    | some q =>
      constructor
      · rintro ⟨⟩
        exact ⟨rfl, rfl⟩
      · rintro ⟨⟨⟩, ⟨⟩⟩
        rfl

end

/-- Whatever was recorded before, since a bracket was cleared last its lower end is the first of the
finite points with the greatest value that is not positive, its upper end the first with the least
positive value, and it has both ends if there are points of both kinds. So when a solve of a single
unknown comes to search for a root, it searches from two points that it has evaluated itself, with
values on different sides of zero. -/
theorem search_from_current_bracket {α : Type} [Scalar α] [LawfulScalar α] :
    (∀ calls : List (BracketCall α),
      let b := calls.foldl Bracket.call {}
      let points := calls.foldl BracketCall.points []
      (∀ p, b.below = some p ↔ FirstBest Sample.Low Sample.Above points p) ∧
      (∀ p, b.above = some p ↔ FirstBest Sample.High Sample.Below points p) ∧
      ((∃ low high, b.interval? = some (low, high)) ↔
        (∃ p ∈ points, p.Low) ∧ ∃ p ∈ points, p.High) ∧
      ∀ low high, b.interval? = some (low, high) ↔ b.below = some low ∧ b.above = some high) ∧
    ∀ {σ : Type} {n : Nat} {b : Block α σ n} {first : Bool} {attempt : Attempt α}
      {t : Session α σ n} {below above : Sample α} (h : n = 1),
      b.problem.options.method = .damped → b.problem.options.refineBracket = true →
      untilSearch b.problem b.session = .ok (first, attempt) t →
      t.bracket.interval? = some (below, above) →
      solveAction b.problem b.session = thenAlways
        ((findRoot (evaluateSingle b.problem h) below above 0).run >>= fun answer =>
          concludeSearch h attempt answer >>= afterSearch b.problem first attempt)
        Session.unmarked t ∧
      FirstBest Sample.Low Sample.Above (samplesSince b.session t) below ∧
      FirstBest Sample.High Sample.Below (samplesSince b.session t) above ∧
      Sampled b.session t below ∧ Sampled b.session t above ∧ below.f ≤ 0 ∧ 0 < above.f := by
  constructor
  · intro calls
    have htells := Bracket.Tells.calls (α := α) .empty calls
    exact ⟨fun _ => htells.below.best_iff, fun _ => htells.above.best_iff, htells.interval_iff,
      fun _ _ => Bracket.interval?_eq _⟩
  · intro σ n b first attempt t below above h hmethod hP huntil hends
    have htells := untilSearch_tells hP huntil
    obtain ⟨hbelow, habove⟩ := (Bracket.interval?_eq _).1 hends
    have hlow := htells.below.best below hbelow
    have hhigh := htells.above.best above habove
    refine ⟨?_, hlow, hhigh, sampled_of_mem hlow.mem.1, sampled_of_mem hhigh.mem.1, hlow.mem.2.2.2,
      hhigh.mem.2.2.2⟩
    rw [solveAction_untilSearch hmethod huntil, ← bind_assoc]
    unfold thenAlways
    rw [bind_apply, bind_apply, refineAttempt_search hP h hends]

/-- Does a solve of the block come to search for a root, from two points that pass a test? -/
def Block.searchesFrom {α σ : Type} [Scalar α] {n : Nat} (b : Block α σ n)
    (test : Sample α → Sample α → Bool) : Bool :=
  match untilSearch b.problem b.session with
  | .ok _ t => t.bracket.interval?.any fun (below, above) => test below above
  | .error _ _ => false

theorem Block.exists_of_searchesFrom {α σ : Type} [Scalar α] {n : Nat} {b : Block α σ n}
    {test : Sample α → Sample α → Bool} (h : b.searchesFrom test = true) :
    ∃ reached t below above, untilSearch b.problem b.session = .ok reached t ∧
      t.bracket.interval? = some (below, above) ∧ test below above = true := by
  unfold Block.searchesFrom at h
  split at h
  · next reached t huntil =>
    obtain ⟨⟨below, above⟩, hends, htest⟩ := Option.any_eq_true _ _ |>.1 h
    exact ⟨reached, t, below, above, huntil, hends, htest⟩
  · cases h

/-- The block after a solve, a change of its model and a new point. -/
def Block.moved {α σ : Type} [Scalar α] {n : Nat} (b : Block α σ n) (model : σ) (x : Array α) :
    Block α σ n :=
  ((b.solve.2.modifyModel fun _ => model).setPoint x).2

theorem Block.moved_problem {α σ : Type} [Scalar α] {n : Nat} (b : Block α σ n) (model : σ)
    (x : Array α) : (b.moved model x).problem = b.problem :=
  (Block.perform_problem _ _).trans (Block.perform_problem b solveAction)

/-- A block whose residual jumps from minus one to one, one beyond the state of its model. -/
def jumpBlock : Block Float Float 1 where
  problem :=
    { label := "loop"
      options := { Options.standard with maxIterations := 1 }
      model :=
        { start := fun values p => (.ok { values with initial := #[1] }, p)
          evaluate := fun x p => (jump (x.map fun y => y - p), p)
          evaluateAuxiliary := fun _ p => (.ok (), p)
          writeBack := fun _ p => (.ok (), p)
          residualNominals := fun _ => none
          jacobian := none
          directional := none
          pattern := fun _ => none }
      auxiliaryCount := 0
      variability := .continuous }
  session := Session.fresh 1 0

set_option maxRecDepth 100000 in
/-- The bracket of the first solve is there when the second one begins, whose search starts from both
sides of where the jump is then. -/
theorem search_from_current_bracket_jump :
    (∃ low high, (jumpBlock.moved 3 #[4]).session.bracket.interval? = some (low, high) ∧
      low.x < 2 ∧ high.x < 2) ∧
    ∃ (t : Session Float Float 1) (below above : Sample Float),
      t.bracket.interval? = some (below, above) ∧ 3 < below.x ∧ 3 < above.x ∧
        Sampled (jumpBlock.moved 3 #[4]).session t below ∧
        Sampled (jumpBlock.moved 3 #[4]).session t above ∧ below.f ≤ 0 ∧ 0 < above.f := by
  -- One test for both, so that the first solve is run only once.
  have htests : (((jumpBlock.moved 3 #[4]).session.bracket.interval?.any fun (low, high) =>
      decide (low.x < 2 ∧ high.x < 2)) && (jumpBlock.moved 3 #[4]).searchesFrom fun below above =>
        decide (3 < below.x ∧ 3 < above.x)) = true := by
    decide +kernel
  obtain ⟨hstale, hsearches⟩ := Bool.and_eq_true_iff.1 htests
  obtain ⟨⟨low, high⟩, hinterval, hbefore⟩ := Option.any_eq_true _ _ |>.1 hstale
  obtain ⟨reached, t, below, above, huntil, hends, hbeyond⟩ :=
    Block.exists_of_searchesFrom hsearches
  obtain ⟨hbelow, habove⟩ := of_decide_eq_true hbeyond
  obtain ⟨_, _, _, hsearch⟩ := search_from_current_bracket.2 rfl
    (by rw [Block.moved_problem]; rfl) (by rw [Block.moved_problem]; rfl) huntil hends
  exact ⟨⟨low, high, hinterval, of_decide_eq_true hbefore⟩, t, below, above, hends, hbelow, habove,
    hsearch⟩

end AlgebraicLoop
