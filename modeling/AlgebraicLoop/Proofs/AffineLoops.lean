import AlgebraicLoop.Proofs.ExactVectors
import AlgebraicLoop.Proofs.GroupedDifferences
import AlgebraicLoop.Proofs.StepsInBox

/-!
# Affine loops without rounding

The residual of an affine loop is `A x - b`. Without rounding each of its difference quotients is an
entry of `A`, to one side or to both, however far the unknown is moved; only an unknown that is not
moved at all has none. So every Jacobian that is accepted is `A`, whether it is differenced or the
model's own.

* `affine`, `Model.Affine`, `Model.ofMatrix`: the residual, and models that answer with it;
* `Session.grounds`, `Probes`: what requests and differences leave alone, and actions that return and
  leave it alone;
* `quotients_affine`, `columnsOf`: quotients and columns;
* `evaluateJacobian_affine`: an evaluation of the Jacobian;
* `prepareJacobian_opening`: what is done about the Jacobian before the first step.
-/

namespace AlgebraicLoop
set_option autoImplicit false

open Exact

/-! ## Residuals -/

section
variable {K : Type} [Field K] {n : Nat}

/-- The residual `A v - b`. -/
def affine (A : Fin n → Fin n → K) (b v : Fin n → K) : Fin n → K := fun i => ∑ j, A i j * v j - b i

theorem affine_update (A : Fin n → Fin n → K) (b v : Fin n → K) (j : Fin n) (a : K) (i : Fin n) :
    affine A b (Function.update v j a) i = affine A b v i + A i j * (a - v j) := by
  have hmoved : Function.update v j a = v + Pi.single j (a - v j) := by
    funext k
    by_cases hk : k = j
    · subst hk
      simp
    · simp [hk]
  have hsum : ∑ k, A i k * (v k + (Pi.single j (a - v j) : Fin n → K) k) =
      ∑ k, A i k * v k + A i j * (a - v j) := by
    simp only [mul_add, Finset.sum_add_distrib]
    congr 1
    rw [Finset.sum_eq_single j]
    · rw [Pi.single_eq_same]
    · intro k _ hk
      rw [Pi.single_eq_of_ne hk, mul_zero]
    · exact fun hj => absurd (Finset.mem_univ j) hj
  unfold affine
  rw [hmoved]
  simp only [Pi.add_apply]
  rw [hsum]
  ring

theorem affine_add (A : Fin n → Fin n → K) (b v p : Fin n → K) (i : Fin n) :
    affine A b (fun j => v j + p j) i = affine A b v i + ∑ j, A i j * p j := by
  unfold affine
  simp only [mul_add, Finset.sum_add_distrib]
  ring

theorem affine_root {A : Fin n → Fin n → K} {b v p : Fin n → K}
    (hp : ∀ i, ∑ j, A i j * p j = -affine A b v i) : affine A b (fun i => v i + p i) = 0 := by
  funext i
  rw [affine_add, hp]
  exact add_neg_cancel _

end

section
variable {K : Type} [Field K] [LinearOrder K] [SquareRoot K] {σ : Type} {n : Nat}

/-- A model of the residual `A x - b`, where `b` is part of the model's state and no request changes
it. Derivatives, where the model computes them, are those of the residual. -/
structure Model.Affine (M : Model (Exact K) σ n) (A : Fin n → Fin n → K) (b : σ → Fin n → K) :
    Prop where
  residual : ∀ v m, ∃ m',
    M.evaluate (ofField v) m = (.ok (ofField (affine A (b m) v)), m') ∧ b m' = b m
  jacobian : ∀ J, M.jacobian = some J → ∀ v m B, ∃ m',
    (J (ofField v) m).answer B = (.ok (ofMatrix A), m') ∧ b m' = b m
  directional : ∀ D, M.directional = some D → ∀ v d m, ∃ m',
    D (ofField v) (ofField d) m = (.ok (ofField fun i => ∑ j, A i j * d j), m') ∧ b m' = b m

/-- The model of the residual `A x - b` whose state is `b`. -/
def Model.ofMatrix (A : Fin n → Fin n → K) : Model (Exact K) (Fin n → K) n where
  start values b := (.ok values, b)
  evaluate x b := (.ok (((AlgebraicLoop.ofMatrix A).apply x).zipWith (· - ·) (ofField b)), b)
  evaluateAuxiliary _ b := (.ok (), b)
  writeBack _ b := (.ok (), b)
  residualNominals _ := none
  jacobian := none
  directional := none
  pattern _ := none

theorem Model.ofMatrix_affine (A : Fin n → Fin n → K) : (Model.ofMatrix A).Affine A id where
  residual v b := by
    refine ⟨b, ?_, rfl⟩
    change (Except.ok (((AlgebraicLoop.ofMatrix A).apply (ofField v)).zipWith (· - ·) (ofField b)),
      b) = _
    rw [apply_ofMatrix, zipWith_ofField fun i => finite_sub _ (b i)]
    rfl
  jacobian _ h := by cases h
  directional _ h := by cases h

end

/-! ## What differences leave alone -/

section
variable {α σ τ : Type} [Scalar α] {n : Nat} {β γ : Type}

/-- All of a session but its record of requests, the entries of its Jacobian and how many of them
disagreed with quotients; of the model's state only what `b` takes from it. -/
def Session.grounds (b : σ → τ) (s : Session α σ n) : Session α τ n where
  x := s.x
  lower := s.lower
  upper := s.upper
  nominal := s.nominal
  initial := s.initial
  phase := s.phase
  counters := { s.counters with residualEvaluations := 0 }
  atEvent := s.atEvent
  eventSinceJacobian := s.eventSinceJacobian
  guessGiven := s.guessGiven
  bracket := {}
  work := { s.work with jacobian := Mat.zero n n, jacobianMismatches := 0 }
  model := b s.model
  notices := #[]
  calls := #[]

/-- The action, started in `s`, returns a value with the property `Q`, and leaves the grounds as they
are. -/
def Probes (b : σ → τ) (s : Session α σ n) (a : Action α σ n β) (Q : β → Prop) : Prop :=
  ∃ answer t, a s = .ok answer t ∧ t.grounds b = s.grounds b ∧ Q answer

namespace Probes
variable {b : σ → τ} {s t : Session α σ n} {a : Action α σ n β} {Q R : β → Prop}

theorem value {v : β} (h : Q v) : Probes b s (pure v) Q := ⟨v, s, rfl, rfl, h⟩

theorem bind {f : β → Action α σ n γ} {R : γ → Prop} (ha : Probes b s a Q)
    (hf : ∀ v t, t.grounds b = s.grounds b → Q v → Probes b t (f v) R) : Probes b s (a >>= f) R := by
  obtain ⟨v, t, hrun, hst, hv⟩ := ha
  obtain ⟨w, u, hrun', htu, hw⟩ := hf v t hst hv
  exact ⟨w, u, by rw [bind_ok hrun, hrun'], htu.trans hst, hw⟩

theorem read {f : Session α σ n → Action α σ n β} (h : Probes b s (f s) Q) :
    Probes b s (get >>= f) Q := h

theorem mono (ha : Probes b s a Q) (h : ∀ v, Q v → R v) : Probes b s a R := by
  obtain ⟨v, t, hrun, hst, hv⟩ := ha
  exact ⟨v, t, hrun, hst, h v hv⟩

theorem change {g : Session α σ n → Session α σ n} (h : (g s).grounds b = s.grounds b) :
    Probes b s (modify g : Action α σ n Unit) fun _ => True := ⟨(), g s, rfl, h, trivial⟩

theorem forM {ι : Type} {f : ι → Action α σ n Unit} (l : List ι)
    (hf : ∀ i ∈ l, ∀ t, t.grounds b = s.grounds b → Probes b t (f i) fun _ => True) :
    Probes b s (l.forM f) fun _ => True := by
  induction l generalizing s with
  | nil => exact value trivial
  | cons i l ih =>
    refine bind (hf i List.mem_cons_self s rfl) fun _ t hst _ => ih fun k hk u htu => ?_
    exact hf k (List.mem_cons_of_mem i hk) u (htu.trans hst)

end Probes

/-- The answer is the given value if it is proper, and the value for sure where `sure` holds. -/
structure Gives (proper : β → Prop) (value : β) (sure : Prop) (answer : Except Mishap β) : Prop where
  sound : ∀ c, answer = .ok c → proper c → c = value
  certain : sure → answer = .ok value

theorem Gives.of_value {proper : β → Prop} (value : β) (sure : Prop) :
    Gives proper value sure (.ok value) where
  sound _ hc _ := (Except.ok.inj hc).symm
  certain _ := rfl

theorem Gives.of_error {proper : β → Prop} (value : β) {sure : Prop} (h : ¬ sure) (mishap : Mishap) :
    Gives proper value sure (.error mishap) where
  sound _ hc := by cases hc
  certain hs := absurd hs h

end

/-! ## Columns -/

section
variable {K : Type} [Field K] [LinearOrder K] [SquareRoot K] {σ : Type} {n : Nat}
  {A : Fin n → Fin n → K} {b : σ → Fin n → K} {P : Problem (Exact K) σ n}
  {s : Session (Exact K) σ n} {v : Fin n → K}

theorem evaluate_affine (hP : P.model.Affine A b) (v : Fin n → K) (s : Session (Exact K) σ n) :
    Probes b s (evaluate P (ofField v)) fun answer =>
      answer = .ok (ofField (affine A (b s.model) v)) := by
  obtain ⟨m', hm, hb⟩ := hP.residual v s.model
  have hfinite : allFinite (ofField (affine A (b s.model) v)) = true := allFinite_iff.2 ⟨_, rfl⟩
  unfold Probes
  rw [evaluate_apply, hm]
  dsimp only
  rw [findIllegal_none hfinite]
  refine ⟨_, _, rfl, ?_, rfl⟩
  unfold Session.grounds Session.asked
  rw [hm]
  dsimp only
  rw [hb]

/-- A column is proper if it is defined throughout. -/
abbrev ColumnGives (A : Fin n → Fin n → K) (j : Fin n) (sure : Prop)
    (answer : Except Mishap (Vector (Exact K) n)) : Prop :=
  Gives (fun c => allFinite c = true) (ofField fun i => A i j) sure answer

theorem exact_quotient_zero (x : K) : ((finite x - finite x) / finite 0 : Exact K) = nan := by
  rw [finite_sub, sub_self]
  change (if (0 : K) = 0 then ofSign (SignType.sign 0) else finite (0 / 0)) = nan
  rw [if_pos rfl, sign_zero]
  rfl

/-- The quotients between two places of one unknown. -/
theorem quotients_affine (A : Fin n → Fin n → K) (b v : Fin n → K) (j : Fin n) (a a' : K) :
    ColumnGives A j (a ≠ a') (.ok (quotients (ofField (affine A b (Function.update v j a)))
      (ofField (affine A b (Function.update v j a'))) (finite (a - a')))) := by
  by_cases h : a = a'
  · subst h
    refine ⟨fun c hc hfinite => ?_, fun h => absurd rfl h⟩
    cases hc
    have hentry := Vector.all_eq_true.1 hfinite j j.isLt
    simp only [quotients, Vector.getElem_zipWith, getElem_ofField, sub_self,
      exact_quotient_zero] at hentry
    cases hentry
  · have hcolumn : quotients (ofField (affine A b (Function.update v j a)))
        (ofField (affine A b (Function.update v j a'))) (finite (a - a')) =
          ofField fun i => A i j := by
      ext i hi
      have hwidth : a - a' ≠ 0 := sub_ne_zero.2 h
      simp only [quotients, Vector.getElem_zipWith, getElem_ofField, finite_sub]
      rw [finite_div _ hwidth, affine_update, affine_update]
      congr 1
      rw [div_eq_iff hwidth]
      ring
    rw [hcolumn]
    exact .of_value _ _

end

section
variable {K : Type} [Field K] [LinearOrder K] [IsStrictOrderedRing K] [SquareRoot K] {σ : Type}
  {n : Nat} {A : Fin n → Fin n → K} {b : σ → Fin n → K} {P : Problem (Exact K) σ n}
  {s : Session (Exact K) σ n} {scale : Vector (Exact K) n} {v : Fin n → K} {j : Fin n} {h : K}

theorem oneSidedColumn_affine (hP : P.model.Affine A b)
    (hmove : increment (finite (v j)) scale[j] P.options.differenceStep = finite h) :
    Probes b s (oneSidedColumn P scale (ofField v) (ofField (affine A (b s.model) v)) j)
      (ColumnGives A j (h ≠ 0)) := by
  have hinward : ∃ d, inwardIncrement (ofField v)[j] scale[j] P.options.differenceStep s.lower[j]
      s.upper[j] = finite d ∧ (h ≠ 0 → d ≠ 0) := by
    simp only [getElem_position, getElem_ofField] at hmove ⊢
    unfold inwardIncrement
    rw [hmove]
    dsimp only
    split
    · exact ⟨-h, rfl, neg_ne_zero.2⟩
    · exact ⟨h, rfl, id⟩
  obtain ⟨d, hd, hne⟩ := hinward
  have hx : (ofField v)[j] = finite (v j) := getElem_ofField v j j.isLt
  have hquotients := quotients_affine A (b s.model) v j (v j + d) (v j)
  rw [Function.update_eq_self] at hquotients
  unfold oneSidedColumn
  refine .read ?_
  rw [hd, hx]
  dsimp only
  rw [finite_add, ofField_set]
  refine (evaluate_affine hP _ s).bind fun answer t hst hanswer => ?_
  subst hanswer
  dsimp only
  rw [finite_sub]
  refine .value ⟨hquotients.sound, fun h0 => hquotients.certain fun heq => hne h0 ?_⟩
  exact add_eq_left.1 heq

/-- How far a two-sided quotient reaches to one side: never backwards, and not nowhere where there is
room. -/
theorem room_finite (gap : Exact K) (h : K) :
    ∃ r, larger (smaller gap (finite |h|)) 0 = finite r ∧ 0 ≤ r ∧ (0 < gap → h ≠ 0 → 0 < r) := by
  have hreal : isNaN (finite |h| : Exact K) = false := isNaN_eq_false_iff.2 nofun
  unfold smaller
  rw [hreal, zero_eq]
  by_cases hgap : gap < finite |h|
  · rw [if_pos (.inr hgap)]
    cases gap with
    | finite g =>
      rw [larger_finite]
      exact ⟨max g 0, rfl, le_max_right g 0, fun h _ => lt_max_of_lt_left (finite_lt_finite.1 h)⟩
    | negInfinity => exact ⟨0, rfl, le_refl 0, fun h => h.1.elim⟩
    | posInfinity => exact hgap.1.elim
    | nan => exact hgap.1.elim
  · rw [if_neg (by simp [hgap]), larger_finite]
    exact ⟨max |h| 0, rfl, le_max_right _ 0, fun _ h0 => lt_max_of_lt_left (abs_pos.2 h0)⟩

theorem exact_sub_pos {a : K} {y : Exact K} :
    (finite a < y → 0 < y - finite a) ∧ (y < finite a → 0 < finite a - y) := by
  rw [zero_eq]
  cases y with
  | finite c =>
    simp only [finite_sub, finite_lt_finite, sub_pos, imp_self, and_self]
  | posInfinity => exact ⟨fun _ => ⟨trivial, id⟩, fun h => h.1.elim⟩
  | negInfinity => exact ⟨fun h => h.1.elim, fun _ => ⟨trivial, id⟩⟩
  | nan => exact ⟨fun h => h.1.elim, fun h => h.1.elim⟩

omit [IsStrictOrderedRing K] in
theorem probeSide_affine (hP : P.model.Affine A b) {r a : K} (hr : 0 ≤ r) (ha : r = 0 → a = v j) :
    Probes b s (probeSide P (ofField v) (ofField (affine A (b s.model) v)) j (finite r) (finite a)
      (finite r)) fun answer =>
        answer = (finite r, ofField (affine A (b s.model) (Function.update v j a))) := by
  unfold probeSide
  rw [zero_eq]
  by_cases hpos : 0 < r
  · have hroom : (finite r : Exact K) > finite 0 := finite_lt_finite.2 hpos
    rw [if_pos hroom, ofField_set]
    refine (evaluate_affine hP _ s).bind fun answer t hst hanswer => ?_
    subst hanswer
    dsimp only
    rw [if_pos hroom]
    exact .value rfl
  · have hzero : r = 0 := le_antisymm (not_lt.1 hpos) hr
    have hroom : ¬ (finite r : Exact K) > finite 0 := fun h => hpos (finite_lt_finite.1 h)
    rw [if_neg hroom, ha hzero, Function.update_eq_self]
    exact .value rfl

theorem twoSidedColumn_affine (hP : P.model.Affine A b) (hbounds : s.lower[j] < s.upper[j])
    (hmove : increment (finite (v j)) scale[j] P.options.differenceStep = finite h) :
    Probes b s (twoSidedColumn P scale (ofField v) (ofField (affine A (b s.model) v)) j)
      (ColumnGives A j (h ≠ 0)) := by
  have hx : (ofField v)[j] = finite (v j) := getElem_ofField v j j.isLt
  obtain ⟨r, hright, hr, hrpos⟩ := room_finite (s.upper[j] - finite (v j)) h
  obtain ⟨l, hleft, hl, hlpos⟩ := room_finite (finite (v j) - s.lower[j]) h
  -- A point is below the upper bound or above the lower one, so there is room to one side at least.
  have hopen : h ≠ 0 → 0 < r + l := by
    intro h0
    by_cases hup : finite (v j) < s.upper[j]
    · exact add_pos_of_pos_of_nonneg (hrpos (exact_sub_pos.1 hup) h0) hl
    · have hbelow : s.lower[j] < finite (v j) :=
        LawfulScalar.lt_of_lt_of_le hbounds
          (exact_le_of_not_lt nofun (ne_nan_of_le hbounds.1).2 hup)
      exact add_pos_of_nonneg_of_pos hr (hlpos (exact_sub_pos.2 hbelow) h0)
  have hquotients := quotients_affine A (b s.model) v j (v j + r) (v j - l)
  have hspan : v j + r - (v j - l) = r + l := by ring
  rw [hspan] at hquotients
  unfold twoSidedColumn
  refine .read ?_
  rw [hx, hmove, abs_finite]
  dsimp only
  rw [hright, hleft, finite_add, finite_sub, finite_sub, finite_sub, add_sub_cancel_left, sub_sub_cancel]
  refine (probeSide_affine hP hr fun h0 => by rw [h0, add_zero]).bind fun answer t hst hanswer => ?_
  subst hanswer
  have hmodel : b s.model = b t.model := (congrArg Session.model hst).symm
  dsimp only
  rw [hmodel] at hquotients ⊢
  refine (probeSide_affine hP hl fun h0 => by rw [h0, sub_zero]).bind fun answer u htu hanswer => ?_
  subst hanswer
  dsimp only
  rw [finite_add, zero_eq]
  by_cases hwidth : r + l = 0
  · rw [hwidth, if_pos (beq_iff.2 ⟨le_refl (0 : K), le_refl (0 : K)⟩)]
    exact .value (.of_error _ (fun h0 => (hopen h0).ne' hwidth) _)
  · have hne : ¬ ((finite (r + l) : Exact K) == finite 0) = true := fun hbeq =>
      hwidth (le_antisymm (beq_iff.1 hbeq).1 (beq_iff.1 hbeq).2)
    rw [if_neg hne]
    refine .value ⟨hquotients.sound, fun h0 => hquotients.certain fun heq => hwidth ?_⟩
    rw [← hspan, heq, sub_self]

end

/-! ## Matrices -/

section
variable {K : Type} {n : Nat} {A : Fin n → Fin n → K}

/-- The matrix with the columns of a list replaced by those of `A`. -/
def columnsOf (A : Fin n → Fin n → K) (l : List (Fin n)) (B : Mat (Exact K) n n) :
    Mat (Exact K) n n := Mat.ofFn fun i j => if j ∈ l then finite (A i j) else B[i][j]

theorem getElem_columnsOf (l : List (Fin n)) (B : Mat (Exact K) n n) (i j : Fin n) :
    (columnsOf A l B)[i][j] = if j ∈ l then finite (A i j) else B[i][j] := by
  simp [columnsOf, Mat.ofFn]

theorem columnsOf_all (B : Mat (Exact K) n n) : columnsOf A (List.finRange n) B = ofMatrix A := by
  ext i hi j hj
  have hentry := getElem_columnsOf (A := A) (List.finRange n) B ⟨i, hi⟩ ⟨j, hj⟩
  rw [if_pos (List.mem_finRange _)] at hentry
  rw [getElem_ofMatrix, getElem_ofField]
  exact hentry

/-- A column of `A` that was put in before the others. -/
theorem columnsOf_setColumn (l : List (Fin n)) (B : Mat (Exact K) n n) (j : Fin n) :
    columnsOf A l (B.setColumn j (ofField fun i => A i j)) = columnsOf A (j :: l) B := by
  refine Vector.ext fun i hi => Vector.ext fun k hk => ?_
  have hleft := getElem_columnsOf (A := A) l (B.setColumn j (ofField fun i => A i j)) ⟨i, hi⟩ ⟨k, hk⟩
  have hright := getElem_columnsOf (A := A) (j :: l) B ⟨i, hi⟩ ⟨k, hk⟩
  refine hleft.trans (Eq.trans ?_ hright.symm)
  rw [Mat.setColumn_entry]
  by_cases hkl : (⟨k, hk⟩ : Fin n) ∈ l
  · rw [if_pos hkl, if_pos (List.mem_cons_of_mem j hkl)]
  · rw [if_neg hkl]
    by_cases hjk : j = ⟨k, hk⟩
    · subst hjk
      rw [if_pos rfl, if_pos List.mem_cons_self]
      exact getElem_ofField _ i hi
    · rw [if_neg hjk, if_neg (by simp [Ne.symm hjk, hkl])]

end

section
variable {K : Type} [Field K] [LinearOrder K] [SquareRoot K] {σ : Type} {n : Nat}
  {A : Fin n → Fin n → K} {b : σ → Fin n → K} {P : Problem (Exact K) σ n}
  {s : Session (Exact K) σ n}

/-- Every entry is finite. -/
def Entries (B : Mat (Exact K) n n) : Prop := ∀ i j : Fin n, isFinite B[i][j] = true

theorem fillColumns_affine {column : Fin n → Action (Exact K) σ n (Except Mishap (Vector (Exact K) n))}
    {publish : Mat (Exact K) n n → Action (Exact K) σ n Unit} {sure : Fin n → Prop}
    (hcolumn : ∀ j t, t.grounds b = s.grounds b → Probes b t (column j) (ColumnGives A j (sure j)))
    (hpublish : ∀ B t, Probes b t (publish B) fun _ => True) (l : List (Fin n))
    (B : Mat (Exact K) n n) :
    Probes b s (fillColumns column publish l B)
      (Gives Entries (columnsOf A l B) (∀ j ∈ l, sure j)) := by
  induction l generalizing B s with
  | nil =>
    have hnone : columnsOf A [] B = B := by
      refine Vector.ext fun i hi => Vector.ext fun j hj => ?_
      exact (getElem_columnsOf [] B ⟨i, hi⟩ ⟨j, hj⟩).trans (if_neg List.not_mem_nil)
    rw [hnone]
    exact .value (.of_value _ _)
  | cons j rest ih =>
    unfold fillColumns
    refine (hcolumn j s rfl).bind fun answer t hst hanswer => ?_
    cases answer with
    | error mishap =>
      refine .value (.of_error _ (fun hsure => ?_) mishap)
      cases hanswer.certain (hsure j List.mem_cons_self)
    | ok c =>
      refine (hpublish (B.setColumn j c) t).bind fun _ u htu _ => ?_
      have hrest := @ih u (fun k w huw => hcolumn k w (huw.trans (htu.trans hst))) (B.setColumn j c)
      refine hrest.mono fun answer h => ⟨fun C hC hfinite => ?_, fun hsure => ?_⟩
      · have hCrest := h.sound C hC hfinite
        by_cases hj : j ∈ rest
        · -- The column is replaced once more, so it does not matter what it was.
          subst hCrest
          refine Vector.ext fun i hi => Vector.ext fun k hk => ?_
          refine (getElem_columnsOf rest _ ⟨i, hi⟩ ⟨k, hk⟩).trans
            (Eq.trans ?_ (getElem_columnsOf (j :: rest) B ⟨i, hi⟩ ⟨k, hk⟩).symm)
          by_cases hkrest : (⟨k, hk⟩ : Fin n) ∈ rest
          · rw [if_pos hkrest, if_pos (List.mem_cons_of_mem j hkrest)]
          · have hjk : j ≠ ⟨k, hk⟩ := fun he => hkrest (he ▸ hj)
            rw [if_neg hkrest, Mat.setColumn_entry, if_neg hjk,
              if_neg (by simp [Ne.symm hjk, hkrest])]
        · have hc : c = ofField fun i => A i j := by
            refine hanswer.sound c rfl (Vector.all_eq_true.2 fun i hi => ?_)
            have hentry := hfinite ⟨i, hi⟩ j
            rw [hCrest, getElem_columnsOf, if_neg hj, Mat.setColumn_entry, if_pos rfl] at hentry
            exact hentry
          rw [hCrest, hc, columnsOf_setColumn]
      · have hc := Except.ok.inj (hanswer.certain (hsure j List.mem_cons_self))
        rw [h.certain fun k hk => hsure k (List.mem_cons_of_mem j hk), hc, columnsOf_setColumn]

theorem entries_of_legal {B : Mat (Exact K) n n} (h : lastIllegalEntry? B = none) : Entries B := by
  -- An entry that was found is never given up for none.
  have kept : ∀ (l : List (Fin n × Fin n)) (found : Fin n × Fin n),
      l.foldl (fun found p => if isFinite B[p.1][p.2] then found else some p) (some found) ≠ none := by
    intro l
    induction l with
    | nil => exact fun _ => Option.some_ne_none _
    | cons p l ih =>
      intro found
      rw [List.foldl_cons]
      split
      · exact ih found
      · exact ih p
  have fold : ∀ l : List (Fin n × Fin n),
      l.foldl (fun found p => if isFinite B[p.1][p.2] then found else some p) none = none →
        ∀ p ∈ l, isFinite B[p.1][p.2] = true := by
    intro l
    induction l with
    | nil => exact fun _ _ => nofun
    | cons p l ih =>
      intro hnone
      rw [List.foldl_cons] at hnone
      by_cases hp : isFinite B[p.1][p.2] = true
      · rw [if_pos hp] at hnone
        exact List.forall_mem_cons.2 ⟨hp, ih hnone⟩
      · rw [if_neg hp] at hnone
        exact absurd hnone (kept l p)
  intro i j
  refine fold _ h (i, j) (List.mem_flatMap.2 ⟨j, List.mem_finRange j, ?_⟩)
  exact List.mem_map.2 ⟨i, List.mem_finRange i, rfl⟩

theorem legal_of_entries {B : Mat (Exact K) n n} (h : Entries B) : lastIllegalEntry? B = none := by
  unfold lastIllegalEntry?
  generalize ((List.finRange n).flatMap fun j => (List.finRange n).map fun i => (i, j)) = l
  induction l with
  | nil => rfl
  | cons p l ih =>
    rw [List.foldl_cons]
    dsimp only
    rw [if_pos (h p.1 p.2)]
    exact ih

theorem entries_ofMatrix (A : Fin n → Fin n → K) : Entries (ofMatrix A) := by
  intro i j
  simp only [getElem_position, getElem_ofMatrix, getElem_ofField]
  rfl

end

/-! ## Jacobians -/

/-- Does the model compute the Jacobian itself? -/
def Problem.derives {α σ : Type} {n : Nat} (P : Problem α σ n) : Bool :=
  if P.options.jacobianSource = .analytic then P.model.jacobian.isSome
  else P.model.directional.isSome

section
variable {K : Type} [Field K] [LinearOrder K] [SquareRoot K] {σ : Type} {n : Nat}
  {A : Fin n → Fin n → K} {b : σ → Fin n → K} {P : Problem (Exact K) σ n}
  {s : Session (Exact K) σ n}

/-- At `v` the unknowns are moved by the finite numbers `h` for their quotients. -/
def Moves (P : Problem (Exact K) σ n) (scale : Vector (Exact K) n) (v h : Fin n → K) : Prop :=
  ∀ j : Fin n, increment (finite (v j)) scale[j] P.options.differenceStep = finite (h j)

/-- No unknown stays where it is for its quotients, or none are needed. -/
def Sure (P : Problem (Exact K) σ n) (h : Fin n → K) : Prop :=
  P.derives = true ∨ ∀ j, h j ≠ 0

/-- A Jacobian is proper if all its entries are finite. -/
abbrev JacobianGives (A : Fin n → Fin n → K) (sure : Prop)
    (answer : Except Mishap (Mat (Exact K) n n)) : Prop := Gives Entries (ofMatrix A) sure answer

/-- The unknowns are moved by finite numbers, where their typical sizes are finite. -/
theorem moves_of_sizes {scale : Vector (Exact K) n} {size : Fin n → K} {δ : K}
    (hsize : ∀ j : Fin n, 1 / scale[j] = finite (size j))
    (hstep : P.options.differenceStep = finite δ) (v : Fin n → K) :
    Moves P scale v fun j =>
      if v j < 0 then -(max |v j| (size j) * δ) else max |v j| (size j) * δ := by
  intro j
  unfold increment
  rw [hsize, hstep, abs_finite, larger_finite, zero_eq]
  dsimp only
  rw [finite_mul]
  split
  · next hneg => rw [if_pos (finite_lt_finite.1 hneg), finite_neg]
  · next hneg => rw [if_neg fun hlt => hneg (finite_lt_finite.2 hlt)]

theorem storeJacobian_probes (b : σ → Fin n → K) (B : Mat (Exact K) n n)
    (t : Session (Exact K) σ n) : Probes b t (storeJacobian B) fun _ => True := .change rfl

/-- A request for derivatives that the model answers. -/
theorem request_probes {β : Type} {request : Answer σ β} {kind : Request}
    {record : Except EvalFailure β → Call (Exact K) n} {value : β}
    (h : ∃ m', request s.model = (.ok value, m') ∧ b m' = b s.model) :
    Probes b s (ask request record >>= settleAnswer kind) fun answer => answer = .ok value := by
  obtain ⟨m', hm, hb⟩ := h
  unfold Probes
  rw [ask_bind_apply, hm]
  refine ⟨_, _, rfl, ?_, rfl⟩
  unfold Session.grounds
  dsimp only
  rw [hb]

theorem analyticJacobian_affine (hP : P.model.Affine A b)
    {J : Vector (Exact K) n → σ → Writing (Exact K) σ n} (hJ : P.model.jacobian = some J)
    (v : Fin n → K) (sure : Prop) :
    Probes b s (analyticJacobian J (ofField v)) (JacobianGives A sure) := by
  rw [analyticJacobian_eq]
  refine .read ?_
  refine Probes.bind (.read (storeJacobian_probes b _ s)) fun _ t hst _ => ?_
  refine (request_probes (hP.jacobian J hJ v t.model _)).mono fun answer hanswer => ?_
  rw [hanswer]
  exact .of_value _ _

theorem unitVector_eq (j : Fin n) :
    (Vector.replicate n 0 : Vector (Exact K) n).set j 1 j.isLt = ofField (Pi.single j 1) := by
  rw [replicate_zero, one_eq, ofField_set]
  rfl

theorem directionalJacobian_affine (hP : P.model.Affine A b)
    {D : Vector (Exact K) n → Vector (Exact K) n → Answer σ (Vector (Exact K) n)}
    (hD : P.model.directional = some D) (v : Fin n → K) (B : Mat (Exact K) n n) (sure : Prop) :
    Probes b s (directionalJacobian D (ofField v) B) (JacobianGives A sure) := by
  have hcolumn : ∀ (j : Fin n) (t : Session (Exact K) σ n), t.grounds b = s.grounds b →
      Probes b t (do
        let direction := (Vector.replicate n 0).set j 1 j.isLt
        let answer ← ask (D (ofField v) direction) (.directional (ofField v) direction)
        settleAnswer .differentiate answer) (ColumnGives A j True) := by
    intro j t _
    have hentries : (fun i => ∑ k, A i k * (Pi.single j 1 : Fin n → K) k) = fun i => A i j := by
      funext i
      simp [Pi.single_apply]
    have hanswer := hP.directional D hD v (Pi.single j 1) t.model
    rw [hentries] at hanswer
    dsimp only
    rw [unitVector_eq]
    refine (request_probes hanswer).mono fun answer h => ?_
    rw [h]
    exact .of_value _ _
  have hfill := fillColumns_affine hcolumn (storeJacobian_probes b) (List.finRange n) B
  rw [columnsOf_all] at hfill
  exact hfill.mono fun answer hanswer =>
    ⟨hanswer.sound, fun _ => hanswer.certain fun _ _ => trivial⟩

end

section
variable {K : Type} [Field K] [LinearOrder K] [IsStrictOrderedRing K] [SquareRoot K] {σ : Type}
  {n : Nat} {A : Fin n → Fin n → K} {b : σ → Fin n → K} {P : Problem (Exact K) σ n}
  {s : Session (Exact K) σ n} {v h : Fin n → K}

theorem differences_affine (hP : P.model.Affine A b)
    (hbounds : ∀ j : Fin n, s.lower[j] < s.upper[j]) {scale : Vector (Exact K) n}
    (hmoves : Moves P scale v h) (twoSided : Fin n → Bool)
    {publish : Mat (Exact K) n n → Action (Exact K) σ n Unit}
    (hpublish : ∀ B t, Probes b t (publish B) fun _ => True) (B : Mat (Exact K) n n) :
    Probes b s (differences P scale twoSided (ofField v) (ofField (affine A (b s.model) v)) publish B)
      (JacobianGives A (∀ j, h j ≠ 0)) := by
  have hcolumn : ∀ (j : Fin n) (t : Session (Exact K) σ n), t.grounds b = s.grounds b →
      Probes b t (if twoSided j
        then twoSidedColumn P scale (ofField v) (ofField (affine A (b s.model) v)) j
        else oneSidedColumn P scale (ofField v) (ofField (affine A (b s.model) v)) j)
        (ColumnGives A j (h j ≠ 0)) := by
    intro j t hst
    have hmodel : b s.model = b t.model := (congrArg Session.model hst).symm
    have hlower : t.lower = s.lower := (congrArg Session.lower hst :)
    have hupper : t.upper = s.upper := (congrArg Session.upper hst :)
    rw [hmodel]
    cases twoSided j with
    | true => exact twoSidedColumn_affine hP (by rw [hlower, hupper]; exact hbounds j) (hmoves j)
    | false => exact oneSidedColumn_affine hP (hmoves j)
  have hfill := fillColumns_affine hcolumn hpublish (List.finRange n) B
  rw [columnsOf_all] at hfill
  exact hfill.mono fun answer hanswer =>
    ⟨hanswer.sound, fun hall => hanswer.certain fun j _ => hall j⟩

/-- The Jacobian of an affine loop, whatever it is computed from, is the matrix of the loop. -/
theorem sourceJacobian_affine (hP : P.model.Affine A b) (hpattern : s.work.pattern = none)
    (hbounds : ∀ j : Fin n, s.lower[j] < s.upper[j]) (hmoves : Moves P s.work.variableScale v h) :
    Probes b s (sourceJacobian P (ofField v) (ofField (affine A (b s.model) v)))
      fun (answer, _) => JacobianGives A (Sure P h) answer := by
  have paired : ∀ {a : Action (Exact K) σ n (Except Mishap (Mat (Exact K) n n))} (exact : Bool),
      Probes b s a (JacobianGives A (Sure P h)) →
        Probes b s (a >>= fun status => pure (status, exact))
          fun (answer, _) => JacobianGives A (Sure P h) answer := fun exact ha =>
    ha.bind fun _ _ _ hanswer => .value hanswer
  have hdifferences (hnone : P.derives = false) :=
    (differences_affine hP hbounds hmoves (isTwoSided P.options s.work (ofField v))
      (storeJacobian_probes b) s.work.jacobian).mono fun answer hanswer =>
        (⟨hanswer.sound, fun hsure => hanswer.certain (hsure.resolve_left (by simp [hnone]))⟩ :
          JacobianGives A (Sure P h) answer)
  unfold sourceJacobian
  refine .read ?_
  dsimp only
  unfold exactJacobian?
  rw [hpattern]
  by_cases hsource : P.options.jacobianSource = .analytic
  · rw [if_pos hsource]
    cases hJ : P.model.jacobian with
    | none => exact paired false (hdifferences (by unfold Problem.derives; rw [if_pos hsource, hJ]; rfl))
    | some J => exact paired true (analyticJacobian_affine hP hJ v _)
  · rw [if_neg hsource]
    cases hD : P.model.directional with
    | none => exact paired false (hdifferences (by unfold Problem.derives; rw [if_neg hsource, hD]; rfl))
    | some D => exact paired true (directionalJacobian_affine hP hD v _ _)

theorem compareWithDifferences_affine (hP : P.model.Affine A b)
    (hbounds : ∀ j : Fin n, s.lower[j] < s.upper[j]) (hmoves : Moves P s.work.variableScale v h) :
    Probes b s (compareWithDifferences P (ofField v) (ofField (affine A (b s.model) v)))
      fun _ => True := by
  unfold compareWithDifferences
  refine .read ?_
  refine (differences_affine hP hbounds hmoves _ (fun B t => .value trivial) _).bind
    fun answer t hst _ => ?_
  cases answer with
  | error mishap => exact .value trivial
  | ok D =>
    refine .forM _ fun j _ u _ => .forM _ fun i _ w _ => ?_
    unfold compareEntry
    split
    · exact (Probes.change rfl).bind fun _ y _ _ => .change rfl
    · exact .value trivial

omit [IsStrictOrderedRing K] in
theorem grounds_renewed {t : Session (Exact K) σ n} (h : t.grounds b = s.grounds b) :
    t.renewed.grounds b = s.renewed.grounds b := by
  have hrenewed : ∀ u : Session (Exact K) σ n, u.renewed.grounds b = (u.grounds b).renewed :=
    fun _ => rfl
  rw [hrenewed, hrenewed, h]

omit [IsStrictOrderedRing K] in
theorem grounds_disowned {t : Session (Exact K) σ n} (h : t.grounds b = s.grounds b) :
    t.disowned.grounds b = s.disowned.grounds b := by
  have hdisowned : ∀ u : Session (Exact K) σ n, u.disowned.grounds b = (u.grounds b).disowned :=
    fun _ => rfl
  rw [hdisowned, hdisowned, h]

/-- What an evaluation compares after it has accepted a Jacobian leaves what the loop depends on. -/
theorem comparison_affine (hP : P.model.Affine A b) (hbounds : ∀ j : Fin n, s.lower[j] < s.upper[j])
    (hmoves : Moves P s.work.variableScale v h) {t : Session (Exact K) σ n}
    (hst : t.grounds b = s.grounds b) (exact : Bool) :
    Probes b t.renewed
      (if exact && P.options.checkJacobian then
        compareWithDifferences P (ofField v) (ofField (affine A (b s.model) v))
      else pure ()) fun _ => True := by
  have hmodel : b s.model = b t.renewed.model := (congrArg Session.model hst).symm
  have hlower : t.renewed.lower = s.lower := (congrArg Session.lower hst :)
  have hupper : t.renewed.upper = s.upper := (congrArg Session.upper hst :)
  have hscale : t.renewed.work.variableScale = s.work.variableScale :=
    congrArg (fun u => u.work.variableScale) hst
  split
  · rw [hmodel]
    exact compareWithDifferences_affine hP (by rw [hlower, hupper]; exact hbounds)
      (by rw [hscale]; exact hmoves)
  · exact .value trivial

/-- A Jacobian that is accepted is the matrix of the loop. One is rejected only where some unknown
stays where it is for its quotients. -/
theorem evaluateJacobian_affine (hP : P.model.Affine A b) (hpattern : s.work.pattern = none)
    (hbounds : ∀ j : Fin n, s.lower[j] < s.upper[j]) (hmoves : Moves P s.work.variableScale v h) :
    (∃ t, evaluateJacobian P (ofField v) (ofField (affine A (b s.model) v)) s = .ok (.ok ()) t ∧
        t.work.jacobian = ofMatrix A ∧ t.grounds b = s.renewed.grounds b) ∨
      ¬ Sure P h ∧ ∃ mishap t,
        evaluateJacobian P (ofField v) (ofField (affine A (b s.model) v)) s = .ok (.error mishap) t ∧
          t.grounds b = s.disowned.grounds b := by
  obtain ⟨⟨answer, exact⟩, t, hrun, hst, hanswer⟩ :=
    sourceJacobian_affine hP hpattern hbounds hmoves
  have hdisowned := grounds_disowned hst
  cases answer with
  | error mishap =>
    refine .inr ⟨fun hsure => ?_, _, _, evaluateJacobian_undefined hrun, hdisowned⟩
    cases hanswer.certain hsure
  | ok B =>
    cases hillegal : lastIllegalEntry? B with
    | some entry =>
      refine .inr ⟨fun hsure => ?_, _, _, evaluateJacobian_illegal hrun hillegal, hdisowned⟩
      cases hanswer.certain hsure
      rw [legal_of_entries (entries_ofMatrix A)] at hillegal
      cases hillegal
    | none =>
      obtain rfl := hanswer.sound B rfl (entries_of_legal hillegal)
      obtain ⟨_, u, hu, htu, _⟩ := comparison_affine hP hbounds hmoves hst exact
      have hevaluated : evaluateJacobian P (ofField v) (ofField (affine A (b s.model) v)) s =
          .ok (.ok ()) u := (evaluateJacobian_legal hrun hillegal).trans (bind_ok hu)
      obtain ⟨_, exact', w, hsource, _⟩ := (evaluateJacobian_after P _ _ s).ok hevaluated
      have hsame := hrun.symm.trans hsource
      injection hsame with hpair _
      refine .inl ⟨u, hevaluated, ?_, htu.trans (grounds_renewed hst)⟩
      exact (Except.ok.inj (congrArg Prod.fst hpair)).symm

end

/-! ## Before the first step -/

section
variable {α σ : Type} [Scalar α] {n : Nat}

/-- Can the Jacobian at hand be used where its variability allows? -/
def Session.usable (s : Session α σ n) : Bool :=
  s.work.flags.jacobianCurrent && !s.work.flags.forceNewJacobian

/-- Does the next solve use the Jacobian at hand again, although the point may have changed since? -/
def Session.reuses (P : Problem α σ n) (s : Session α σ n) : Bool :=
  s.usable && P.variability.reusable s.eventSinceJacobian

/-- The Jacobian at hand is taken as it is, or a new one is evaluated. -/
theorem prepareJacobian_opening (P : Problem α σ n) (x f : Vector α n) (s : Session α σ n) :
    (s.usable = true ∧
      (s.work.jacobianAtPoint = true ∨ P.variability.reusable s.eventSinceJacobian = true) ∧
      ∃ fresh t, prepareJacobian P 1 x f s = .ok (.ok fresh) t ∧ (t = s ∨ t = s.aged)) ∨
    (s.reuses P = false ∧
      prepareJacobian P 1 x f s = (do
        match ← evaluateJacobian P x f with
        | .ok () => pure (.ok true)
        | .error mishap => pure (.error mishap) : Action α σ n (Except Mishap Bool)) s) := by
  have hplan : planJacobian P.options P.variability s.eventSinceJacobian s.work 1 f =
      if s.usable then
        if s.work.jacobianAtPoint then .alreadyFresh
        else if P.variability.reusable s.eventSinceJacobian then .keep else .evaluate
      else .evaluate := by
    unfold planJacobian Session.usable
    cases s.work.flags.jacobianCurrent <;> cases s.work.flags.forceNewJacobian <;> rfl
  unfold prepareJacobian
  rw [get_bind_apply, hplan]
  by_cases husable : s.usable = true
  · rw [if_pos husable]
    by_cases hpoint : s.work.jacobianAtPoint = true
    · rw [if_pos hpoint]
      exact .inl ⟨husable, .inl hpoint, true, s, rfl, .inl rfl⟩
    · rw [if_neg hpoint]
      by_cases hreusable : P.variability.reusable s.eventSinceJacobian = true
      · rw [if_pos hreusable]
        exact .inl ⟨husable, .inr hreusable, false, s.aged, rfl, .inr rfl⟩
      · rw [if_neg hreusable]
        exact .inr ⟨Bool.and_eq_false_iff.2 (.inr (Bool.eq_false_iff.2 hreusable)), rfl⟩
  · rw [if_neg husable]
    exact .inr ⟨Bool.and_eq_false_iff.2 (.inl (Bool.eq_false_iff.2 husable)), rfl⟩

end

end AlgebraicLoop
