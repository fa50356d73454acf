import AlgebraicLoop.Proofs.DifferenceQuotients
import AlgebraicLoop.Proofs.NearestPoints

/-!
# Differences of residuals that are defined everywhere

Where the model answers everywhere, a one-sided column always has a place to go to, also outside the
bounds, and so has a group of columns. A two-sided column stays between the bounds: it is defined
unless these leave its unknown no room at all.

* `Shut`: a two-sided column between equal bounds;
* `columnAt_defined`, `fillColumns_outcome`: one column, and one after another;
* `compressedDifferences_defined`: columns by groups;
* `evaluateJacobian_defined`: a fresh Jacobian is accepted unless some column is shut.
-/

namespace AlgebraicLoop
set_option autoImplicit false

open Exact

/-! ## Room between bounds -/

section
variable {K : Type} [Field K] [LinearOrder K] [IsStrictOrderedRing K] [SquareRoot K]
  {y z : Exact K} {a : K}

/-- Between different bounds there is room to one side at least. -/
theorem exact_room (hy : y ≤ finite a) (hz : finite a ≤ z) (hne : y ≠ z) :
    0 < z - finite a ∨ 0 < finite a - y := by
  by_cases hup : finite a < z
  · exact .inl (exact_sub_pos.1 hup)
  · have hza : z = finite a :=
      exact_le_antisymm (exact_le_of_not_lt (finite_ne_nan a) (ne_nan_of_le hz).2 hup) hz
    by_cases hdown : y < finite a
    · exact .inr (exact_sub_pos.2 hdown)
    · have hya : y = finite a :=
        exact_le_antisymm hy (exact_le_of_not_lt (ne_nan_of_le hy).1 (finite_ne_nan a) hdown)
      exact absurd (hya.trans hza.symm) hne

/-- Without room a side goes nowhere. -/
theorem room_of_none {h : K} (h0 : h ≠ 0) :
    larger (smaller (finite 0) (finite |h|)) 0 = (finite 0 : Exact K) := by
  have hshort : (finite 0 : Exact K) < finite |h| := finite_lt_finite.2 (abs_pos.2 h0)
  unfold smaller
  rw [if_pos (.inr hshort), zero_eq, larger_finite, max_self]

end

/-! ## Residuals that are defined everywhere -/

section
variable {K : Type} [Field K] [LinearOrder K] [SquareRoot K] {σ : Type} {n : Nat}
  {F : Vector (Exact K) n → Vector (Exact K) n} {P : Problem (Exact K) σ n}

/-- The model gives a finite residual at every finite point. -/
def AnswersEverywhere (P : Problem (Exact K) σ n) (F : Vector (Exact K) n → Vector (Exact K) n) :
    Prop := ∀ w : Fin n → K, Answers P F (ofField w)

/-- The residual in finite numbers. -/
theorem AnswersEverywhere.values (hF : AnswersEverywhere P F) :
    ∃ G : (Fin n → K) → Fin n → K, (∀ w, F (ofField w) = ofField (G w)) ∧ P.model.Agrees G ∧
      ∀ w, ¬ P.model.Refuses w := by
  have hvalue : ∀ w, ∃ g : Fin n → K, F (ofField w) = ofField g := fun w =>
    allFinite_iff.1 (hF w).finite
  choose G hG using hvalue
  refine ⟨G, hG, fun w m y hy => ?_, fun w ⟨m, failure, hfailure⟩ => ?_⟩
  · rw [(hF w).answer] at hy
    rw [← Except.ok.inj hy, hG]
  · rw [(hF w).answer] at hfailure
    cases hfailure

end

/-! ## Columns -/

section
variable {α σ : Type} {n : Nat}

/-- Either all columns are filled in, or one that is not defined ends it. -/
theorem fillColumns_outcome {column : Fin n → Action α σ n (Except Mishap (Vector α n))}
    {publish : Mat α n n → Action α σ n Unit} {still : Session α σ n → Prop} {shut : Fin n → Prop}
    {mishap : Fin n → Mishap}
    (hcolumn : ∀ j r, still r → ∃ t, still t ∧
      (¬ shut j ∧ (∃ c, column j r = .ok (.ok c) t) ∨ shut j ∧ column j r = .ok (.error (mishap j)) t))
    (hpublish : ∀ A r, still r → ∃ t, still t ∧ publish A r = .ok () t) (l : List (Fin n))
    (A : Mat α n n) {s : Session α σ n} (hs : still s) :
    ((∀ j ∈ l, ¬ shut j) ∧ ∃ B t, fillColumns column publish l A s = .ok (.ok B) t) ∨
      ∃ j ∈ l, shut j ∧ ∃ t, fillColumns column publish l A s = .ok (.error (mishap j)) t := by
  induction l generalizing A s with
  | nil => exact .inl ⟨fun _ hj => absurd hj List.not_mem_nil, A, s, rfl⟩
  | cons j rest ih =>
    obtain ⟨t, ht, ⟨hopen, c, hcol⟩ | ⟨hshut, hcol⟩⟩ := hcolumn j s hs
    · obtain ⟨u, hu, hstored⟩ := hpublish (A.setColumn j c) t ht
      have hrun : fillColumns column publish (j :: rest) A s =
          fillColumns column publish rest (A.setColumn j c) u := by
        rw [fillColumns, bind_ok hcol]
        exact bind_ok hstored
      rw [hrun]
      obtain ⟨hrest, hfilled⟩ | ⟨k, hk, hended⟩ := ih (A.setColumn j c) hu
      · exact .inl ⟨List.forall_mem_cons.2 ⟨hopen, hrest⟩, hfilled⟩
      · exact .inr ⟨k, List.mem_cons_of_mem j hk, hended⟩
    · refine .inr ⟨j, List.mem_cons_self, hshut, t, ?_⟩
      rw [fillColumns, bind_ok hcol]
      rfl

end

section
variable {K : Type} [Field K] [LinearOrder K] [IsStrictOrderedRing K] [SquareRoot K] {σ : Type}
  {n : Nat} {F : Vector (Exact K) n → Vector (Exact K) n} {G : (Fin n → K) → Fin n → K}
  {P : Problem (Exact K) σ n} {u v : Fin n → K} {δ : K}

/-- The bounds are in order, and the point is between them. -/
def Session.Holds (s : Session (Exact K) σ n) (v : Fin n → K) : Prop :=
  ∀ j : Fin n, s.lower[j] ≤ finite (v j) ∧ finite (v j) ≤ s.upper[j]

/-- A column to both sides whose unknown has equal bounds. -/
def Shut (s : Session (Exact K) σ n) (twoSided : Fin n → Bool) (j : Fin n) : Prop :=
  twoSided j = true ∧ s.lower[j] = s.upper[j]

omit [IsStrictOrderedRing K] in
theorem Reaches.room_of_answer {j : Fin n} {s t : Session (Exact K) σ n} {room a reached : K}
    (h : Reaches P v j s t room a reached) (hanswers : ∀ w, ¬ P.model.Refuses w) : reached = room :=
  h.fully.resolve_right fun ⟨_, _, hrefused, _⟩ => hanswers _ hrefused

/-- A column is defined unless it is shut. -/
theorem columnAt_defined (hM : P.model.Agrees G) (hanswers : ∀ w, ¬ P.model.Refuses w)
    (hu : ∀ j, 0 < u j) (hstep : P.options.differenceStep = finite δ) (hδ : 0 < δ)
    (twoSided : Fin n → Bool) {s : Session (Exact K) σ n} (hs : s.Holds v) (j : Fin n) :
    ∃ t, (t.lower = s.lower ∧ t.upper = s.upper) ∧
      (¬ Shut s twoSided j ∧ (∃ c, columnAt P u twoSided v (G v) j s = .ok (.ok c) t) ∨
        Shut s twoSided j ∧
          columnAt P u twoSided v (G v) j s = .ok (.error (.undefinedAround j)) t) := by
  obtain ⟨d, hmove, -, h0⟩ := increment_reachOf hu hstep hδ v j
  unfold columnAt
  by_cases htwo : twoSided j = true
  · rw [if_pos htwo]
    obtain ⟨right, hroomRight, hright, hopenRight⟩ := room_finite (s.upper[j] - finite (v j)) d
    obtain ⟨left, hroomLeft, hleft, hopenLeft⟩ := room_finite (finite (v j) - s.lower[j]) d
    have hafter := twoSidedColumn_after hM hmove hright hleft hroomRight hroomLeft
    cases hrun : twoSidedColumn P (ofField u) (ofField v) (ofField (G v)) j s with
    | error halt t =>
      obtain ⟨w, hrefused⟩ := hafter.error hrun
      exact absurd hrefused (hanswers w)
    | ok answer t =>
      obtain ⟨r, l, m, hsm, hmt, houtcome⟩ := hafter.ok hrun
      obtain rfl := hsm.room_of_answer hanswers
      obtain rfl := hmt.room_of_answer hanswers
      refine ⟨t, ⟨hmt.along.lower.trans hsm.along.lower, hmt.along.upper.trans hsm.along.upper⟩, ?_⟩
      -- The sides have no width exactly where the bounds are equal.
      by_cases hequal : s.lower[j] = s.upper[j]
      · have hlower : s.lower[j] = finite (v j) :=
          exact_le_antisymm (hs j).1 (by rw [hequal]; exact (hs j).2)
        have hupper : s.upper[j] = finite (v j) := hequal.symm.trans hlower
        rw [hupper, finite_sub, sub_self, room_of_none h0] at hroomRight
        rw [hlower, finite_sub, sub_self, room_of_none h0] at hroomLeft
        obtain rfl := Exact.finite.inj hroomRight
        obtain rfl := Exact.finite.inj hroomLeft
        obtain ⟨_, rfl⟩ | ⟨hne, _⟩ := houtcome
        · exact .inr ⟨⟨htwo, hequal⟩, rfl⟩
        · exact absurd ((add_zero (v j)).trans (sub_zero (v j)).symm) hne
      · have hwidth : 0 < r + l := by
          obtain hup | hdown := exact_room (hs j).1 (hs j).2 hequal
          · exact add_pos_of_pos_of_nonneg (hopenRight hup h0) hleft
          · exact add_pos_of_nonneg_of_pos hright (hopenLeft hdown h0)
        obtain ⟨hzero, _⟩ | ⟨_, rfl⟩ := houtcome
        · exact absurd hzero hwidth.ne'
        · exact .inl ⟨fun hshut => hequal hshut.2, _, rfl⟩
  · rw [if_neg htwo]
    have hafter := oneSidedColumn_after hM hmove h0 s
    cases hrun : oneSidedColumn P (ofField u) (ofField v) (ofField (G v)) j s with
    | error halt t =>
      obtain ⟨w, hrefused⟩ := hafter.error hrun
      exact absurd hrefused (hanswers w)
    | ok answer t =>
      obtain ⟨halong, ⟨a, _, rfl⟩ | ⟨_, w, hrefused⟩⟩ := hafter.ok hrun
      · exact ⟨t, ⟨halong.lower, halong.upper⟩, .inl ⟨fun hshut => htwo hshut.1, _, rfl⟩⟩
      · exact absurd hrefused (hanswers w)

/-- Differences are defined unless some column is shut. -/
theorem differences_defined (hF : AnswersEverywhere P F) (hu : ∀ j, 0 < u j)
    (hstep : P.options.differenceStep = finite δ) (hδ : 0 < δ) (twoSided : Fin n → Bool)
    {s : Session (Exact K) σ n} (hs : s.Holds v) (A : Mat (Exact K) n n) :
    ((∀ j, ¬ Shut s twoSided j) ∧ ∃ B t,
        differences P (ofField u) twoSided (ofField v) (F (ofField v)) storeJacobian A s =
          .ok (.ok B) t ∧ Entries B) ∨
      ∃ j t, Shut s twoSided j ∧
        differences P (ofField u) twoSided (ofField v) (F (ofField v)) storeJacobian A s =
          .ok (.error (.undefinedAround j)) t := by
  obtain ⟨G, hG, hM, hanswers⟩ := hF.values
  rw [hG]
  have hcolumn : ∀ j r, (r.lower = s.lower ∧ r.upper = s.upper) →
      ∃ t, (t.lower = s.lower ∧ t.upper = s.upper) ∧
        (¬ Shut s twoSided j ∧ (∃ c, columnAt P u twoSided v (G v) j r = .ok (.ok c) t) ∨
          Shut s twoSided j ∧
            columnAt P u twoSided v (G v) j r = .ok (.error (.undefinedAround j)) t) := by
    rintro j r ⟨hlower, hupper⟩
    have hr : r.Holds v := fun k => by rw [hlower, hupper]; exact hs k
    obtain ⟨t, ⟨hl, hup⟩, houtcome⟩ := columnAt_defined hM hanswers hu hstep hδ twoSided hr j
    have hshut : Shut r twoSided j ↔ Shut s twoSided j := by
      unfold Shut
      rw [hlower, hupper]
    rw [hshut] at houtcome
    exact ⟨t, ⟨hl.trans hlower, hup.trans hupper⟩, houtcome⟩
  have hpublish : ∀ B (r : Session (Exact K) σ n), (r.lower = s.lower ∧ r.upper = s.upper) →
      ∃ t, (t.lower = s.lower ∧ t.upper = s.upper) ∧ storeJacobian B r = .ok () t :=
    fun B r hr => ⟨{ r with work := { r.work with jacobian := B } }, hr, rfl⟩
  obtain ⟨hopen, B, t, hrun⟩ | ⟨j, _, hshut, t, hrun⟩ :=
    fillColumns_outcome hcolumn hpublish (List.finRange n) A (s := s) ⟨rfl, rfl⟩
  · refine .inl ⟨fun j => hopen j (List.mem_finRange j), B, t, hrun, fun i j => ?_⟩
    obtain ⟨a, a', -, hentries, -⟩ :=
      differences_secants hM hu hstep hδ storeJacobian_quiet hrun j
    rw [hentries]
    rfl
  · exact .inr ⟨j, t, hshut, hrun⟩

/-! ## Groups of columns -/

/-- The point with the unknowns of a group moved is finite, and no unknown of the group is where it
was. -/
theorem groupPoint_finite (hu : ∀ j, 0 < u j) (hstep : P.options.differenceStep = finite δ)
    (hδ : 0 < δ) (s : Session (Exact K) σ n) (group : List (Fin n)) :
    ∃ w : Fin n → K, groupPoint P s (ofField u) (ofField v) group = ofField w ∧
      ∀ j ∈ group, w j ≠ v j := by
  have hmoved : ∀ j : Fin n, ∃ d, moved P s (ofField u) (ofField v) j = finite (v j + d) ∧ d ≠ 0 := by
    intro j
    obtain ⟨e, hmove, -, h0⟩ := increment_reachOf hu hstep hδ v j
    obtain ⟨d, hd, hne⟩ := inwardIncrement_finite hmove h0 s.lower[j] s.upper[j]
    refine ⟨d, ?_, hne⟩
    unfold moved
    rw [show (ofField v)[j] = finite (v j) from getElem_ofField v j j.isLt, hd, finite_add]
  choose d hd hne using hmoved
  refine ⟨fun j => if j ∈ group then v j + d j else v j, ?_, fun j hj heq => ?_⟩
  · refine Vector.ext fun k hk => ?_
    have hentry := groupPoint_entry P s (ofField u) (ofField v) group ⟨k, hk⟩
    rw [hd, getElem_position, getElem_position, getElem_ofField] at hentry
    rw [getElem_ofField, hentry]
    split
    · rfl
    · rfl
  · dsimp only at heq
    rw [if_pos hj] at heq
    exact hne j (add_eq_left.1 heq)

/-- Differences by groups are defined. -/
theorem compressedDifferences_defined (hF : AnswersEverywhere P F) (hu : ∀ j, 0 < u j)
    (hstep : P.options.differenceStep = finite δ) (hδ : 0 < δ) (pattern : Pattern n n)
    (s : Session (Exact K) σ n) (A : Mat (Exact K) n n) :
    ∃ B t, compressedDifferences P (ofField u) pattern (ofField v) (F (ofField v)) storeJacobian
        pattern.groups A s = .ok (.ok B) t ∧ Entries B := by
  have hpoint := groupPoint_finite (P := P) (v := v) hu hstep hδ s
  have hgroups : ∀ group ∈ pattern.groups,
      Answers P F (groupPoint P s (ofField u) (ofField v) group) := by
    intro group _
    obtain ⟨w, hw, -⟩ := hpoint group
    rw [hw]
    exact hF w
  obtain ⟨B, t, hrun, hentries⟩ := compressedDifferences_answered pattern hgroups A
  refine ⟨B, t, hrun, fun i k => ?_⟩
  obtain ⟨hk, -⟩ | ⟨group, -, hk, hentry⟩ := hentries i k
  · exact absurd (mem_firstFit.2 (List.mem_finRange k)) hk
  · obtain ⟨G, hG, -, -⟩ := hF.values
    obtain ⟨w, hw, hne⟩ := hpoint group
    rw [hentry]
    unfold columnOfGroup groupColumn
    rw [hw, hG, hG]
    simp only [getElem_position, Vector.getElem_ofFn, getElem_ofField]
    split
    · rw [finite_sub, finite_sub, finite_div _ (sub_ne_zero.2 (hne k hk))]
      rfl
    · rw [zero_eq]
      rfl

/-! ## Jacobians -/

omit [IsStrictOrderedRing K] in
/-- A finite Jacobian from differences is accepted. -/
theorem evaluateJacobian_of_source {x f : Vector (Exact K) n} {s t : Session (Exact K) σ n}
    {B : Mat (Exact K) n n} (hrun : sourceJacobian P x f s = .ok (.ok B, false) t)
    (hB : Entries B) : evaluateJacobian P x f s = .ok (.ok ()) t.renewed :=
  evaluateJacobian_legal hrun (legal_of_entries hB)

omit [IsStrictOrderedRing K] in
/-- Where the model does not compute the Jacobian itself, it is differenced. -/
theorem exactJacobian_none (hderives : P.derives = false) (x : Vector (Exact K) n)
    (A : Mat (Exact K) n n) : exactJacobian? P x A = none := by
  unfold Problem.derives at hderives
  unfold exactJacobian?
  split at hderives
  · next hsource =>
    rw [if_pos hsource, Option.map_eq_none_iff]
    exact Option.isNone_iff_eq_none.1 (Option.isSome_eq_false_iff.1 hderives)
  · next hsource =>
    rw [if_neg hsource, Option.map_eq_none_iff]
    exact Option.isNone_iff_eq_none.1 (Option.isSome_eq_false_iff.1 hderives)

omit [IsStrictOrderedRing K] in
theorem sourceJacobian_grouped (hderives : P.derives = false) {s t : Session (Exact K) σ n}
    {pattern : Pattern n n} (hpattern : s.work.pattern = some pattern) {x f : Vector (Exact K) n}
    {status : Except Mishap (Mat (Exact K) n n)}
    (hrun : groupedJacobian P pattern x f s = .ok status t) :
    sourceJacobian P x f s = .ok (status, false) t := by
  unfold sourceJacobian
  rw [get_bind_apply, exactJacobian_none hderives, hpattern]
  exact bind_ok hrun

omit [IsStrictOrderedRing K] in
theorem sourceJacobian_columns (hderives : P.derives = false) {s t : Session (Exact K) σ n}
    (hpattern : s.work.pattern = none) {x f : Vector (Exact K) n}
    {status : Except Mishap (Mat (Exact K) n n)}
    (hrun : differences P s.work.variableScale (isTwoSided P.options s.work x) x f storeJacobian
      s.work.jacobian s = .ok status t) :
    sourceJacobian P x f s = .ok (status, false) t := by
  unfold sourceJacobian
  rw [get_bind_apply, exactJacobian_none hderives, hpattern]
  exact bind_ok hrun

/-- Is some column of the next Jacobian shut? Only columns one by one are differenced to both
sides. -/
def Session.ShutAt (P : Problem (Exact K) σ n) (s : Session (Exact K) σ n) (v : Fin n → K)
    (j : Fin n) : Prop :=
  s.work.pattern = none ∧ Shut s (isTwoSided P.options s.work (ofField v)) j

/-- Where the model answers everywhere, a Jacobian from differences is accepted at every point
between the bounds, unless an unknown that is to be moved to both sides has equal bounds. Then the
Jacobian is rejected because of such an unknown. -/
theorem evaluateJacobian_defined (hF : AnswersEverywhere P F) (hderives : P.derives = false)
    {s : Session (Exact K) σ n} (hscale : s.work.variableScale = ofField u) (hu : ∀ j, 0 < u j)
    (hstep : P.options.differenceStep = finite δ) (hδ : 0 < δ) (hs : s.Holds v) :
    ((∀ j, ¬ s.ShutAt P v j) →
      ∃ t, evaluateJacobian P (ofField v) (F (ofField v)) s = .ok (.ok ()) t) ∧
    ((∃ j, s.ShutAt P v j) → ∃ j t, s.ShutAt P v j ∧
      evaluateJacobian P (ofField v) (F (ofField v)) s = .ok (.error (.undefinedAround j)) t) := by
  cases hpattern : s.work.pattern with
  | some pattern =>
    have hopen : ∀ j, ¬ s.ShutAt P v j := fun j hj => by
      rw [Session.ShutAt, hpattern] at hj
      cases hj.1
    obtain ⟨B, t, hrun, hB⟩ := compressedDifferences_defined (v := v) hF hu hstep hδ pattern s
      s.work.jacobian
    have hgrouped : groupedJacobian P pattern (ofField v) (F (ofField v)) s = .ok (.ok B) t := by
      unfold groupedJacobian
      rw [get_bind_apply]
      dsimp only
      rw [hscale, bind_ok hrun]
      rfl
    exact ⟨fun _ => ⟨_, evaluateJacobian_of_source (sourceJacobian_grouped hderives hpattern hgrouped)
      hB⟩, fun ⟨j, hj⟩ => absurd hj (hopen j)⟩
  | none =>
    have hshut : ∀ j, s.ShutAt P v j ↔ Shut s (isTwoSided P.options s.work (ofField v)) j :=
      fun j => and_iff_right hpattern
    obtain ⟨hopen, B, t, hrun, hB⟩ | ⟨j, t, hj, hrun⟩ := differences_defined hF hu hstep hδ
      (isTwoSided P.options s.work (ofField v)) hs s.work.jacobian
    · rw [← hscale] at hrun
      exact ⟨fun _ => ⟨_, evaluateJacobian_of_source (sourceJacobian_columns hderives hpattern hrun) hB⟩,
        fun ⟨j, hj⟩ => absurd ((hshut j).1 hj) (hopen j)⟩
    · rw [← hscale] at hrun
      refine ⟨fun hopen => absurd ((hshut j).2 hj) (hopen j),
        fun _ => ⟨j, t.disowned, (hshut j).2 hj, ?_⟩⟩
      unfold evaluateJacobian
      rw [bind_ok (sourceJacobian_columns hderives hpattern hrun)]
      rfl

end

/-! ## An unknown between equal bounds -/

/-- The triple of the unknown. -/
def triple (x : Vector (Exact ℚ) 1) : Vector (Exact ℚ) 1 := x.map fun x => finite 3 * x

/-- The loop of the triple, differenced to both sides. -/
def tripleProblem : Problem (Exact ℚ) Unit 1 where
  label := "loop"
  options :=
    { (Options.standard : Options (Exact ℚ)) with
      jacobianSource := .twoSided .all false
      differenceStep := finite (1 / 8) }
  model := Model.ofFunction fun x => .ok (triple x)
  auxiliaryCount := 0
  variability := .continuous

/-- A session whose unknown is one and has the given bounds. -/
def boundedSession (lower upper : ℚ) : Session (Exact ℚ) Unit 1 :=
  { Session.fresh 1 () with x := ofField ![1], lower := ofField ![lower], upper := ofField ![upper] }

theorem triple_answers : AnswersEverywhere tripleProblem triple := fun w =>
  { answer := fun _ => rfl
    finite := Vector.all_eq_true.2 fun i hi => by
      obtain rfl : i = 0 := by omega
      simp [triple, getElem_ofField] }

/-- The Jacobian is accepted between zero and two. Between one and one it is rejected, though the
residual is defined everywhere and a quotient to one side would be too. -/
theorem evaluateJacobian_defined_triple :
    (∃ t, evaluateJacobian tripleProblem (ofField ![1]) (triple (ofField ![1]))
        (boundedSession 0 2) = .ok (.ok ()) t) ∧
      ∃ j t, evaluateJacobian tripleProblem (ofField ![1]) (triple (ofField ![1]))
        (boundedSession 1 1) = .ok (.error (.undefinedAround j)) t := by
  have hu : ∀ j : Fin 1, 0 < (![1] : Fin 1 → ℚ) j := by decide +kernel
  have hscale : ∀ lower upper : ℚ,
      (boundedSession lower upper).work.variableScale = ofField ![1] := fun _ _ => by
    change Vector.replicate 1 (1 : Exact ℚ) = _
    decide +kernel
  have hdefined : ∀ lower upper : ℚ, (boundedSession lower upper).Holds ![1] → _ := fun lower upper =>
    evaluateJacobian_defined triple_answers rfl (hscale lower upper) hu
      (rfl : tripleProblem.options.differenceStep = finite (1 / 8)) (by norm_num)
  refine ⟨(hdefined 0 2 ?_).1 fun j hj => ?_, ?_⟩
  · unfold Session.Holds
    decide +kernel
  · have hdifferent : ∀ k : Fin 1, (boundedSession 0 2).lower[k] ≠ (boundedSession 0 2).upper[k] := by
      decide +kernel
    exact hdifferent j hj.2.2
  · obtain ⟨j, t, -, hrun⟩ := (hdefined 1 1 (by unfold Session.Holds; decide +kernel)).2
      ⟨0, rfl, rfl, by decide +kernel⟩
    exact ⟨j, t, hrun⟩

end AlgebraicLoop
