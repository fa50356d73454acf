import AlgebraicLoop.Proofs.InsideBounds

/-!
# What a search for a root evaluates

A search is run with a function that takes note of the points it is evaluated at. Without rounding,
it evaluates its function strictly between the points it began with, always between two points of
opposite sign, and these close in on what it finds.

* `logged`, `searchLog`: a search with the points it asked for values at;
* `RootSearch.Runs`: how a search goes on, one value after the other;
* `RootSearch.Runs.invariant`: what every step keeps holds throughout;
* `SearchRecord`, `findRoot_record`: what is known of a whole search.
-/

namespace AlgebraicLoop
set_option autoImplicit false

section
variable {α ε : Type} [Scalar α] {f : α → Except ε α} {xtol : α}

/-! ## Searches that take notes -/

/-- The value of a function at a point, which is noted. -/
def logged {α ε : Type} (f : α → Except ε α) (x : α) : ExceptT ε (StateM (List α)) α :=
  ExceptT.mk fun log => pure (f x, log ++ [x])

theorem logged_bind {α ε β : Type} (f : α → Except ε α) (x : α)
    (g : α → ExceptT ε (StateM (List α)) β) (log : List α) :
    (logged f x >>= g).run.run log =
      match f x with
      | .ok v => (g v).run.run (log ++ [x])
      | .error e => (.error e, log ++ [x]) := by
  change (ExceptT.bindCont g (f x) : StateM (List α) (Except ε β)).run (log ++ [x]) = _
  cases f x <;> rfl

/-- What a search comes to, and the points it asked for values at. -/
def searchLog (f : α → Except ε α) (a b : Sample α) (xtol : α) :
    Except ε (RootFound α) × List α :=
  (findRoot (logged f) a b xtol).run.run []

/-- The searches, brought into order, that a value is asked for in, and what they come to. -/
inductive RootSearch.Runs (f : α → Except ε α) (xtol : α) :
    Nat → Nat → RootSearch α → List (RootSearch α) → Except ε (RootFound α) → Prop
  | exhausted {done : Nat} {r : RootSearch α} : Runs f xtol 0 done r [] (.ok ⟨r.best, done, false⟩)
  | finished {budget done : Nat} {r : RootSearch α} (h : r.arrange.finished xtol = true) :
      Runs f xtol (budget + 1) done r [] (.ok ⟨r.arrange.best, done, true⟩)
  | failed {budget done : Nat} {r : RootSearch α} {e : ε} (h : r.arrange.finished xtol = false)
      (hf : f (r.arrange.probe xtol) = .error e) :
      Runs f xtol (budget + 1) done r [r.arrange] (.error e)
  | onward {budget done : Nat} {r : RootSearch α} {v : α} {searches : List (RootSearch α)}
      {outcome : Except ε (RootFound α)} (h : r.arrange.finished xtol = false)
      (hf : f (r.arrange.probe xtol) = .ok v)
      (rest : Runs f xtol budget (done + 1) (r.arrange.advance xtol v) searches outcome) :
      Runs f xtol (budget + 1) done r (r.arrange :: searches) outcome

namespace RootSearch

theorem run_logged (f : α → Except ε α) (xtol : α) (budget done : Nat) (r : RootSearch α)
    (log : List α) :
    ∃ searches outcome, Runs f xtol budget done r searches outcome ∧
      (RootSearch.run (logged f) xtol budget done r).run.run log =
        (outcome, log ++ searches.map fun s => s.probe xtol) := by
  induction budget generalizing done r log with
  | zero => exact ⟨[], _, .exhausted, by rw [List.map_nil, List.append_nil]; rfl⟩
  | succ budget ih =>
    unfold RootSearch.run
    dsimp only
    cases hfinished : r.arrange.finished xtol with
    | true => exact ⟨[], _, .finished hfinished, by rw [List.map_nil, List.append_nil]; rfl⟩
    | false =>
      rw [if_neg Bool.false_ne_true, logged_bind]
      cases hf : f (r.arrange.probe xtol) with
      | error e => exact ⟨_, _, .failed hfinished hf, rfl⟩
      | ok v =>
        obtain ⟨searches, outcome, hruns, hrun⟩ :=
          ih (done + 1) (r.arrange.advance xtol v) (log ++ [r.arrange.probe xtol])
        refine ⟨_, _, .onward hfinished hf hruns, ?_⟩
        rw [List.append_assoc] at hrun
        exact hrun

namespace Runs
variable {budget done : Nat} {r : RootSearch α} {searches : List (RootSearch α)}
  {outcome : Except ε (RootFound α)}

theorem length_le (h : Runs f xtol budget done r searches outcome) : searches.length ≤ budget := by
  induction h with
  | exhausted => exact le_refl 0
  | finished _ => exact Nat.zero_le _
  | failed _ _ => exact Nat.succ_le_succ (Nat.zero_le _)
  | onward _ _ _ ih => exact Nat.succ_le_succ ih

/-- A search that failed did so at the last point, and no other one ever does. -/
theorem failed_last (h : Runs f xtol budget done r searches outcome) :
    (∀ found, outcome = .ok found → ∀ s ∈ searches, ∃ v, f (s.probe xtol) = .ok v) ∧
      ∀ e, outcome = .error e → ∃ earlier s, searches = earlier ++ [s] ∧
        f (s.probe xtol) = .error e ∧ ∀ s' ∈ earlier, ∃ v, f (s'.probe xtol) = .ok v := by
  induction h with
  | exhausted => exact ⟨fun _ _ => nofun, nofun⟩
  | finished _ => exact ⟨fun _ _ => nofun, nofun⟩
  | failed _ hf =>
    refine ⟨nofun, fun e he => ?_⟩
    cases he
    exact ⟨[], _, rfl, hf, nofun⟩
  | onward _ hf _ ih =>
    obtain ⟨hok, herror⟩ := ih
    refine ⟨fun found hfound => List.forall_mem_cons.2 ⟨⟨_, hf⟩, hok found hfound⟩, fun e he => ?_⟩
    obtain ⟨earlier, s, rfl, hs, hearlier⟩ := herror e he
    exact ⟨_ :: earlier, s, rfl, hs, List.forall_mem_cons.2 ⟨⟨_, hf⟩, hearlier⟩⟩

/-- What is kept when the points are brought into order and when a value comes in, holds of all
searches that a value is asked for in, and of the one that the result is taken from. -/
theorem invariant {Before Ordered : RootSearch α → Prop}
    (h : Runs f xtol budget done r searches outcome)
    (harrange : ∀ s, Before s → Ordered s.arrange)
    (hadvance : ∀ s ∈ searches, Ordered s → s.finished xtol = false → ∀ v,
      f (s.probe xtol) = .ok v → Before (s.advance xtol v))
    (hr : Before r) :
    (∀ s ∈ searches, Ordered s ∧ s.finished xtol = false) ∧
      ∀ found, outcome = .ok found →
        (found.converged = false ∧ ∃ s, Before s ∧ s.best = found.point) ∨
          ∃ s, Ordered s ∧ s.finished xtol = true ∧ s.best = found.point := by
  induction h with
  | exhausted =>
    refine ⟨nofun, fun found hfound => ?_⟩
    cases hfound
    exact .inl ⟨rfl, _, hr, rfl⟩
  | finished hfinished =>
    refine ⟨nofun, fun found hfound => ?_⟩
    cases hfound
    exact .inr ⟨_, harrange _ hr, hfinished, rfl⟩
  | failed hopen _ =>
    exact ⟨List.forall_mem_singleton.2 ⟨harrange _ hr, hopen⟩, nofun⟩
  | onward hopen hf _ ih =>
    obtain ⟨hhead, htail⟩ := List.forall_mem_cons.1 hadvance
    have hordered := harrange _ hr
    obtain ⟨hall, hfound⟩ := ih htail (hhead hordered hopen _ hf)
    exact ⟨List.forall_mem_cons.2 ⟨⟨hordered, hopen⟩, hall⟩, hfound⟩

end Runs

theorem not_lt_arrange [LawfulScalar α] (r : RootSearch α) :
    ¬ abs r.arrange.opposite.f < abs r.arrange.best.f := by
  unfold arrange
  dsimp only
  generalize (if r.sameSide = true then _ else r : RootSearch α) = s
  split
  · next h => exact LawfulScalar.lt_asymm h
  · next h => exact h

end RootSearch

/-! ## Points between others -/

/-- The number lies between the two others, or is one of them. -/
def Between (p q x : α) : Prop := Within p q x ∨ Within q p x

/-- The number lies between the two others, and is neither. -/
def StrictlyBetween (p q x : α) : Prop := (p < x ∧ x < q) ∨ (q < x ∧ x < p)

/-- One of the values is positive, and the other one negative. -/
def Opposed (y z : α) : Prop := (y < 0 ∧ 0 < z) ∨ (0 < y ∧ z < 0)

end

open Exact

section
variable {K ε : Type} [Field K] [LinearOrder K] [IsStrictOrderedRing K] [SquareRoot K]
  {f : Exact K → Except ε (Exact K)} {low high xtol : Exact K}

/-- Two finite numbers are limits of what is between them. -/
theorem limits_of_ends {p q : Exact K} (hp : isFinite p = true) (hq : isFinite q = true) :
    ∃ low high, Placed low high p ∧ Placed low high q ∧
      (∀ x, Within low high x → Between p q x) ∧
      ∀ x, low < x ∧ x < high → StrictlyBetween p q x := by
  have hpn := exact_le_self (isNaN_eq_false_iff.1 (LawfulScalar.real_of_finite p hp))
  have hqn := exact_le_self (isNaN_eq_false_iff.1 (LawfulScalar.real_of_finite q hq))
  obtain hle | hle := LawfulScalar.le_total p q (LawfulScalar.real_of_finite p hp)
    (LawfulScalar.real_of_finite q hq)
  · exact ⟨p, q, ⟨hp, hpn, hle⟩, ⟨hq, hle, hqn⟩, fun _ => .inl, fun _ => .inl⟩
  · exact ⟨q, p, ⟨hp, hle, hpn⟩, ⟨hq, hqn, hle⟩, fun _ => .inr, fun _ => .inr⟩

/-- What lies on the way from one placed point to another lies strictly between the limits. -/
theorem Placed.strictly_between {b o c : K} (hb : Placed low high (finite b))
    (ho : Placed low high (finite o)) (hne : o - b ≠ 0) (h0 : 0 < c) (h1 : c < 1) :
    low < finite (b + (o - b) * c) ∧ finite (b + (o - b) * c) < high := by
  constructor
  · obtain hpos | hneg := lt_or_gt_of_ne hne
    · refine LawfulScalar.lt_of_le_of_lt ho.within.1 (finite_lt_finite.2 ?_)
      nlinarith
    · refine LawfulScalar.lt_of_le_of_lt hb.within.1 (finite_lt_finite.2 ?_)
      nlinarith
  · obtain hpos | hneg := lt_or_gt_of_ne hne
    · refine LawfulScalar.lt_of_lt_of_le (finite_lt_finite.2 ?_) hb.within.2
      nlinarith
    · refine LawfulScalar.lt_of_lt_of_le (finite_lt_finite.2 ?_) ho.within.2
      nlinarith

/-! ## What a search keeps -/

namespace RootSearch

/-- The points of a search stay between limits. -/
theorem Runs.placed {budget done : Nat} {r : RootSearch (Exact K)}
    {searches : List (RootSearch (Exact K))} {outcome : Except ε (RootFound (Exact K))}
    (h : Runs f xtol budget done r searches outcome) (hxtol : 0 ≤ xtol)
    (hr : r.Of fun p => Placed low high p.x) :
    ∀ s ∈ searches, s.Of fun p => Placed low high p.x := by
  intro s hs
  refine ((h.invariant (fun _ hs => hs.arrange) (fun s _ hs hopen v _ => ?_) hr).1 s hs).1
  exact ⟨placed_probe hs.best hs.opposite hxtol hopen, hs.best, hs.opposite⟩

/-- The ends of a search, and then those of the next one, lie between those of the search before. -/
theorem Runs.nested {budget done : Nat} {r : RootSearch (Exact K)}
    {searches : List (RootSearch (Exact K))} {outcome : Except ε (RootFound (Exact K))}
    (h : Runs f xtol budget done r searches outcome) (hxtol : 0 ≤ xtol)
    (hr : r.Of fun p => isFinite p.x = true) :
    searches.Pairwise fun s s' =>
      Between s.best.x s.opposite.x s'.best.x ∧ Between s.best.x s.opposite.x s'.opposite.x := by
  induction h with
  | exhausted => exact .nil
  | finished _ => exact .nil
  | failed _ _ => exact List.pairwise_singleton ..
  | @onward _ _ r v _ _ hopen _ rest ih =>
    have hproper := hr.arrange
    obtain ⟨low, high, hbest, hopposite, hbetween, _⟩ :=
      limits_of_ends hproper.best hproper.opposite
    have hnext : (r.arrange.advance xtol v).Of fun p => Placed low high p.x :=
      ⟨placed_probe hbest hopposite hxtol hopen, hbest, hopposite⟩
    refine List.pairwise_cons.2 ⟨fun s hs => ?_, ih (hnext.mono fun _ hp => hp.proper)⟩
    have hplaced := rest.placed hxtol hnext s hs
    exact ⟨hbetween _ hplaced.best.within, hbetween _ hplaced.opposite.within⟩

end RootSearch

/-- A point on the list, between the limits, with its value. -/
structure Known (f : Exact K → Except ε (Exact K)) (low high : Exact K) (points : List (Exact K))
    (p : Sample (Exact K)) : Prop where
  placed : Placed low high p.x
  value : f p.x = .ok p.f
  proper : isFinite p.f = true
  listed : p.x ∈ points

namespace RootSearch
variable {points : List (Exact K)} {r : RootSearch (Exact K)}

/-- What is known of a search after a value came in. -/
structure Begun (f : Exact K → Except ε (Exact K)) (low high : Exact K) (points : List (Exact K))
    (r : RootSearch (Exact K)) : Prop where
  known : r.Of (Known f low high points)
  sides : ¬ SameSide r.previous r.opposite
  inner : (low < r.best.x ∧ r.best.x < high) ∨ r.best = r.opposite

/-- What is known of a search with its points in order. -/
structure Ordered (f : Exact K → Except ε (Exact K)) (low high : Exact K)
    (points : List (Exact K)) (r : RootSearch (Exact K)) : Prop where
  known : r.Of (Known f low high points)
  sides : ¬ SameSide r.best r.opposite
  least : ¬ abs r.opposite.f < abs r.best.f
  inner : (low < r.best.x ∧ r.best.x < high) ∨ (r.best.f == 0) = true ∨
    (r.previous.x == r.opposite.x) = true

theorem Begun.arrange (h : r.Begun f low high points) : r.arrange.Ordered f low high points := by
  refine ⟨h.known.arrange, not_sameSide_arrange h.sides, not_lt_arrange r, ?_⟩
  obtain ⟨hsides, hr⟩ | ⟨p, q, hp, hq, hq', _⟩ := r.arrange_cases
  · rw [hr]
    refine h.inner.imp_right fun heq => .inl ?_
    -- A value that is on neither side of itself is zero.
    rw [← heq] at hsides
    obtain ⟨y, hy⟩ := isFinite_iff.1 h.known.best.proper
    unfold SameSide at hsides
    rw [hy, zero_eq] at hsides ⊢
    obtain ⟨habove, hbelow⟩ := not_or.1 hsides
    refine beq_iff.2 ⟨?_, ?_⟩
    · exact not_lt.1 fun hlt => habove ⟨finite_lt_finite.2 hlt, finite_lt_finite.2 hlt⟩
    · exact not_lt.1 fun hlt => hbelow ⟨finite_lt_finite.2 hlt, finite_lt_finite.2 hlt⟩
  · refine .inr (.inr ?_)
    have hproper := h.known.arrange.opposite.placed.proper
    obtain ⟨x, hx⟩ := isFinite_iff.1 hproper
    rw [hq, ← hq', hx]
    exact beq_iff.2 ⟨le_refl x, le_refl x⟩

/-- The values at the ends of a search that found no zero have opposite signs. -/
theorem Ordered.opposed (h : r.Ordered f low high points) (hzero : ¬ (r.best.f == 0) = true) :
    Opposed r.best.f r.opposite.f := by
  obtain ⟨y, hy⟩ := isFinite_iff.1 h.known.best.proper
  obtain ⟨z, hz⟩ := isFinite_iff.1 h.known.opposite.proper
  have hsides := h.sides
  have hleast := h.least
  unfold SameSide at hsides
  unfold Opposed
  rw [hy, hz, abs_finite, abs_finite, finite_lt_finite] at hleast
  rw [hy, zero_eq] at hzero
  rw [hy, hz, zero_eq] at hsides ⊢
  simp only [gt_iff_lt, finite_lt_finite] at hsides ⊢
  obtain ⟨habove, hbelow⟩ := not_or.1 hsides
  have hy0 : y ≠ 0 := by
    rintro rfl
    exact hzero (beq_iff.2 ⟨le_refl (0 : K), le_refl (0 : K)⟩)
  have hz0 : z ≠ 0 := by
    rintro rfl
    rw [abs_zero] at hleast
    exact hleast (abs_pos.2 hy0)
  obtain hlt | hgt := lt_or_gt_of_ne hy0
  · refine .inl ⟨hlt, ?_⟩
    exact (lt_or_gt_of_ne hz0).resolve_left fun hneg => hbelow ⟨hlt, hneg⟩
  · refine .inr ⟨hgt, ?_⟩
    exact (lt_or_gt_of_ne hz0).resolve_right fun hpos => habove ⟨hgt, hpos⟩

/-- The next point lies strictly between the limits. -/
theorem Ordered.inside (h : r.Ordered f low high points) (hxtol : 0 ≤ xtol)
    (hopen : r.finished xtol = false) : low < r.probe xtol ∧ r.probe xtol < high := by
  obtain ⟨b, o, tol, hspread⟩ :=
    spread_of_open h.known.best.placed.proper h.known.opposite.placed.proper hxtol hopen
  have hbest := h.known.best.placed
  have hopposite := h.known.opposite.placed
  have hzero : ¬ (r.best.f == 0) = true := (not_or.1 (of_decide_eq_false hopen)).2
  rw [hspread.best] at hbest
  rw [hspread.opposite] at hopposite
  obtain ⟨c, hprobe, h0, h1, hstill⟩ := hspread.probe
  obtain hc | hc := eq_or_lt_of_le h0
  · -- The best point is evaluated once more, so it is not one of the first two.
    obtain ⟨rfl, hshort⟩ := hstill hc.symm
    obtain ⟨y, hy⟩ := isFinite_iff.1 h.known.best.proper
    obtain ⟨z, hz⟩ := isFinite_iff.1 h.known.previous.proper
    have hy0 : y ≠ 0 := by
      rintro rfl
      rw [hy, zero_eq] at hzero
      exact hzero (beq_iff.2 ⟨le_refl (0 : K), le_refl (0 : K)⟩)
    rw [hprobe, ← hc, mul_zero, add_zero, ← hspread.best]
    refine h.inner.resolve_right fun hinner => ?_
    obtain hinner | hsame := hinner
    · exact hzero hinner
    · exact hshort (hspread.long_of_same hy hz hy0 hsame)
  · rw [hprobe]
    exact hbest.strictly_between hopposite hspread.ne hc h1

theorem Ordered.advance (h : r.Ordered f low high points) (hxtol : 0 ≤ xtol)
    (hopen : r.finished xtol = false) {v : Exact K} (hv : f (r.probe xtol) = .ok v)
    (hproper : isFinite v = true) (hlisted : r.probe xtol ∈ points) :
    (r.advance xtol v).Begun f low high points := by
  have hplaced := placed_probe h.known.best.placed h.known.opposite.placed hxtol hopen
  have hprobe : Known f low high points ⟨r.probe xtol, v⟩ := ⟨hplaced, hv, hproper, hlisted⟩
  exact ⟨⟨hprobe, h.known.best, h.known.opposite⟩, h.sides, .inl (h.inside hxtol hopen)⟩

/-- Where a search with its points in order ends, the value is zero, or the function has the opposite
sign at a point of the list that can hardly be told apart. -/
theorem Ordered.converged (h : r.Ordered f low high points) (hxtol : 0 ≤ xtol)
    (hfinished : r.finished xtol = true) :
    r.best.f = 0 ∨ ∃ c ∈ points, ∃ y, f c = .ok y ∧ Opposed r.best.f y ∧
      abs (c - r.best.x) ≤ 4 * roundoff * abs r.best.x + xtol := by
  by_cases hzero : (r.best.f == 0) = true
  · obtain ⟨y, hy⟩ := isFinite_iff.1 h.known.best.proper
    rw [hy, zero_eq] at hzero ⊢
    obtain ⟨hle, hge⟩ := beq_iff.1 hzero
    exact .inl (congrArg finite (le_antisymm hle hge))
  · refine .inr ⟨_, h.known.opposite.listed, _, h.known.opposite.value, h.opposed hzero, ?_⟩
    have hnarrow := (of_decide_eq_true hfinished).resolve_right hzero
    obtain ⟨b, hb⟩ := isFinite_iff.1 h.known.best.placed.proper
    obtain ⟨o, ho⟩ := isFinite_iff.1 h.known.opposite.placed.proper
    have hfour : (4 : Exact K) = finite 4 := congrArg finite (Nat.cast_ofNat : ((4 : ℕ) : K) = 4)
    unfold halfWidth resolution at hnarrow
    rw [hb, ho, half_eq, two_eq, roundoff_eq, finite_sub, finite_mul, finite_mul, abs_finite,
      abs_finite, finite_mul] at hnarrow
    rw [hb, ho, hfour, roundoff_eq, finite_sub, finite_mul, abs_finite, abs_finite, finite_mul]
    rw [zero_eq] at hxtol
    cases xtol with
    | nan => exact hxtol.elim
    | negInfinity => exact hxtol.elim
    | posInfinity => trivial
    | finite t =>
      rw [finite_mul, finite_add, finite_le_finite, abs_mul, abs_of_pos (by norm_num)] at hnarrow
      rw [finite_add, finite_le_finite]
      linarith

end RootSearch

/-! ## Whole searches -/

/-- What is known of a search between two points: the searches it went through, the points it asked
for values at, and what it came to. -/
structure SearchRecord (f : Exact K → Except ε (Exact K)) (a b : Sample (Exact K)) (xtol : Exact K)
    (searches : List (RootSearch (Exact K))) (log : List (Exact K))
    (outcome : Except ε (RootFound (Exact K))) : Prop where
  asked : log = searches.map fun s => s.probe xtol
  few : log.length ≤ 100
  inside : ∀ x ∈ log, StrictlyBetween a.x b.x x
  /-- Each point lies between two points of opposite sign. -/
  opposed : ∀ s ∈ searches, f s.best.x = .ok s.best.f ∧ f s.opposite.x = .ok s.opposite.f ∧
    Opposed s.best.f s.opposite.f ∧ Between s.best.x s.opposite.x (s.probe xtol)
  within : ∀ s ∈ searches, Between a.x b.x s.best.x ∧ Between a.x b.x s.opposite.x
  /-- The pairs close in. -/
  nested : searches.Pairwise fun s s' =>
    Between s.best.x s.opposite.x s'.best.x ∧ Between s.best.x s.opposite.x s'.opposite.x
  found : ∀ found, outcome = .ok found → Between a.x b.x found.point.x ∧
    f found.point.x = .ok found.point.f ∧ ∀ x ∈ log, ∃ y, f x = .ok y
  converged : ∀ found, outcome = .ok found → found.converged = true →
    found.point.f = 0 ∨ ∃ c ∈ a.x :: b.x :: log, ∃ y, f c = .ok y ∧ Opposed found.point.f y ∧
      abs (c - found.point.x) ≤ 4 * roundoff * abs found.point.x + xtol
  /-- A point where the function fails is the last one. -/
  failed : ∀ e, outcome = .error e → ∃ earlier x, log = earlier ++ [x] ∧ f x = .error e ∧
    ∀ x' ∈ earlier, ∃ y, f x' = .ok y

theorem Opposed.not_sameSide {a b : Sample (Exact K)}
    (h : Opposed a.f b.f ∨ a.f = 0 ∨ b.f = 0) : ¬ SameSide a b := by
  have hself : ¬ (0 : Exact K) < 0 := fun h0 => h0.2 h0.1
  rintro (⟨hpos, hpos'⟩ | ⟨hneg, hneg'⟩)
  · obtain (⟨hneg, _⟩ | ⟨_, hneg⟩) | hzero | hzero := h
    · exact LawfulScalar.lt_asymm hpos hneg
    · exact LawfulScalar.lt_asymm hpos' hneg
    · exact hself (hzero ▸ hpos)
    · exact hself (hzero ▸ hpos')
  · obtain (⟨_, hpos⟩ | ⟨hpos, _⟩) | hzero | hzero := h
    · exact LawfulScalar.lt_asymm hneg' hpos
    · exact LawfulScalar.lt_asymm hneg hpos
    · exact hself (hzero ▸ hneg)
    · exact hself (hzero ▸ hneg')

section
variable {a b : Sample (Exact K)}
  (hproper : ∀ x y, isFinite x = true → f x = .ok y → isFinite y = true)
  (hax : isFinite a.x = true) (hbx : isFinite b.x = true) (ha : f a.x = .ok a.f)
  (hb : f b.x = .ok b.f) (hsides : Opposed a.f b.f ∨ a.f = 0 ∨ b.f = 0) (hxtol : 0 ≤ xtol)
include hproper hax hbx ha hb hsides hxtol

theorem RootSearch.Runs.record {budget : Nat} {searches : List (RootSearch (Exact K))}
    {outcome : Except ε (RootFound (Exact K))} (hbudget : budget ≤ 100)
    (hruns : Runs f xtol budget 0 (.start a b) searches outcome) :
    SearchRecord f a b xtol searches (searches.map fun s => s.probe xtol) outcome := by
  obtain ⟨low, high, haplaced, hbplaced, hbetween, hstrictly⟩ := limits_of_ends hax hbx
  obtain ⟨points, hpoints⟩ : ∃ points, points = a.x :: b.x :: searches.map fun s => s.probe xtol :=
    ⟨_, rfl⟩
  have hmem : ∀ s ∈ searches, s.probe xtol ∈ points := fun s hs => by
    rw [hpoints]
    exact List.mem_cons_of_mem _ (List.mem_cons_of_mem _ (List.mem_map_of_mem hs))
  have haknown : Known f low high points a :=
    ⟨haplaced, ha, hproper _ _ hax ha, by simp [hpoints]⟩
  have hbknown : Known f low high points b :=
    ⟨hbplaced, hb, hproper _ _ hbx hb, by simp [hpoints]⟩
  have hstart : (start a b).Begun f low high points :=
    ⟨⟨hbknown, haknown, hbknown⟩, Opposed.not_sameSide hsides, .inr rfl⟩
  obtain ⟨hall, hout⟩ := hruns.invariant (fun _ hs => hs.arrange)
    (fun s hs hordered hopen v hv => hordered.advance hxtol hopen hv
      (hproper _ _ (placed_probe hordered.known.best.placed
        hordered.known.opposite.placed hxtol hopen).proper hv) (hmem s hs)) hstart
  obtain ⟨hok, herror⟩ := hruns.failed_last
  refine ⟨rfl, ?_, ?_, fun s hs => ?_, fun s hs => ?_, hruns.nested hxtol ⟨hbx, hax, hbx⟩,
    fun found hfound => ?_, fun found hfound hconverged => ?_, fun e he => ?_⟩
  · rw [List.length_map]
    exact hruns.length_le.trans hbudget
  · refine List.forall_mem_map.2 fun s hs => ?_
    exact hstrictly _ ((hall s hs).1.inside hxtol (hall s hs).2)
  · obtain ⟨hordered, hopen⟩ := hall s hs
    have hzero : ¬ (s.best.f == 0) = true := (not_or.1 (of_decide_eq_false hopen)).2
    obtain ⟨low', high', hbest, hopposite, hbetween', _⟩ :=
      limits_of_ends hordered.known.best.placed.proper hordered.known.opposite.placed.proper
    exact ⟨hordered.known.best.value, hordered.known.opposite.value, hordered.opposed hzero,
      hbetween' _ (placed_probe hbest hopposite hxtol hopen).within⟩
  · obtain ⟨hordered, _⟩ := hall s hs
    exact ⟨hbetween _ hordered.known.best.placed.within,
      hbetween _ hordered.known.opposite.placed.within⟩
  · have hknown : Known f low high points found.point := by
      obtain ⟨_, s, hs, hbest⟩ | ⟨s, hs, _, hbest⟩ := hout found hfound
      · exact hbest ▸ hs.known.best
      · exact hbest ▸ hs.known.best
    exact ⟨hbetween _ hknown.placed.within, hknown.value,
      List.forall_mem_map.2 (hok found hfound)⟩
  · obtain ⟨hopen, _⟩ | ⟨s, hs, hfinished, hbest⟩ := hout found hfound
    · rw [hconverged] at hopen
      cases hopen
    · rw [← hbest, ← hpoints]
      exact hs.converged hxtol hfinished
  · obtain ⟨earlier, s, hsearches, hs, hearlier⟩ := herror e he
    refine ⟨earlier.map fun s => s.probe xtol, s.probe xtol, ?_, hs,
      List.forall_mem_map.2 hearlier⟩
    rw [hsearches, List.map_append]
    rfl

/-- A search between two points of opposite sign, or one that begins at a zero, closes in on what it
finds, and evaluates its function nowhere else. -/
theorem findRoot_record :
    ∃ searches, SearchRecord f a b xtol searches (searchLog f a b xtol).2
      (searchLog f a b xtol).1 := by
  by_cases hzero : (a.f == 0) = true
  · have hlog : searchLog f a b xtol = (.ok ⟨a, 0, true⟩, []) := by
      unfold searchLog findRoot
      rw [if_pos hzero]
      rfl
    have hvalue : a.f = 0 := by
      obtain ⟨y, hy⟩ := isFinite_iff.1 (hproper _ _ hax ha)
      rw [hy, zero_eq] at hzero ⊢
      obtain ⟨hle, hge⟩ := beq_iff.1 hzero
      exact congrArg finite (le_antisymm hle hge)
    obtain ⟨low, high, haplaced, _, hbetween, _⟩ := limits_of_ends hax hbx
    rw [hlog]
    refine ⟨[], rfl, Nat.zero_le _, List.forall_mem_nil _, List.forall_mem_nil _,
      List.forall_mem_nil _, .nil, fun found hfound => ?_, fun found hfound _ => ?_,
      fun e he => ?_⟩
    · cases hfound
      exact ⟨hbetween _ haplaced.within, ha, List.forall_mem_nil _⟩
    · cases hfound
      exact .inl hvalue
    · cases he
  · obtain ⟨searches, outcome, hruns, hrun⟩ :=
      RootSearch.run_logged f xtol rootBudget 0 (.start a b) []
    have hlog : searchLog f a b xtol = (outcome, searches.map fun s => s.probe xtol) := by
      unfold searchLog findRoot
      rw [if_neg hzero, hrun, List.nil_append]
    rw [hlog]
    exact ⟨searches, hruns.record hproper hax hbx ha hb hsides hxtol (le_refl 100)⟩

end

end

/-! ## A jump -/

/-- A function without a zero that changes its sign. -/
def signChange (x : Exact ℚ) : Except String (Exact ℚ) := .ok (if x < finite (1 / 3) then -1 else 1)

set_option maxRecDepth 100000 in
/-- The search closes in on the jump. -/
theorem findRoot_record_signChange :
    (searchLog signChange ⟨0, -1⟩ ⟨1, 1⟩ 0.125).2 = [finite (1 / 2), finite (1 / 4), finite (3 / 8)] ∧
      ∃ searches, SearchRecord signChange ⟨0, -1⟩ ⟨1, 1⟩ 0.125 searches
        (searchLog signChange ⟨0, -1⟩ ⟨1, 1⟩ 0.125).2 (searchLog signChange ⟨0, -1⟩ ⟨1, 1⟩ 0.125).1 := by
  refine ⟨by decide +kernel, findRoot_record (fun x y _ h => ?_) rfl rfl ?_ ?_ ?_ ?_⟩
  · cases h
    split <;> rfl
  · exact congrArg Except.ok (if_pos (by decide +kernel))
  · exact congrArg Except.ok (if_neg (by decide +kernel))
  · exact .inl (.inl ⟨by decide +kernel, by decide +kernel⟩)
  · decide +kernel

end AlgebraicLoop
