import AlgebraicLoop.Proofs.AffineLoops
import AlgebraicLoop.Proofs.InsideBounds
import Mathlib.Algebra.MvPolynomial.Degrees
import Mathlib.Algebra.MvPolynomial.PDeriv

/-!
# What difference quotients divide

Without rounding every column of differences is the change of the residual between two places of its
unknown, divided by their distance, whichever sides are shut or undefined. Between any two places an
affine residual changes as its matrix says, and between two places equally far to both sides a
residual of degree two changes as its derivative in the middle says.

* `Model.Agrees`, `secant`: residuals that may be undefined, and their quotients;
* `Along`: what the quotients of one unknown ask for;
* `oneSidedColumn_after`, `twoSidedColumn_after`: the two places of a column;
* `fillColumns_runs`: the run behind each column of a matrix;
* `differences_exact`: matrices of affine residuals, and columns of those of degree two.
-/

namespace AlgebraicLoop
set_option autoImplicit false

open Exact

/-! ## Changes of a residual -/

section
variable {K : Type} [Field K] {n : Nat}

/-- The change of `F` from `a'` to `a` along unknown `j`, divided by the distance. -/
def secant (F : (Fin n → K) → Fin n → K) (v : Fin n → K) (j : Fin n) (a a' : K) : Fin n → K :=
  fun i => (F (Function.update v j a) i - F (Function.update v j a') i) / (a - a')

theorem secant_affine (A : Fin n → Fin n → K) (b v : Fin n → K) (j : Fin n) {a a' : K}
    (h : a ≠ a') : secant (affine A b) v j a a' = fun i => A i j := by
  funext i
  have hwidth : a - a' ≠ 0 := sub_ne_zero.2 h
  unfold secant
  rw [affine_update, affine_update, div_eq_iff hwidth]
  ring

open MvPolynomial in
/-- A monomial with one of its variables taken out. -/
theorem eval_monomial_update (m : Fin n →₀ ℕ) (c : K) (v : Fin n → K) (j : Fin n) (a : K) :
    eval (Function.update v j a) (monomial m c) =
      a ^ m j * (c * ∏ i ∈ Finset.univ.erase j, v i ^ m i) := by
  have hothers : ∏ i ∈ Finset.univ.erase j, Function.update v j a i ^ m i =
      ∏ i ∈ Finset.univ.erase j, v i ^ m i :=
    Finset.prod_congr rfl fun i hi => by
      rw [Function.update_of_ne (Finset.ne_of_mem_erase hi)]
  rw [eval_monomial, Finsupp.prod_fintype _ _ fun i => pow_zero _,
    ← Finset.mul_prod_erase _ _ (Finset.mem_univ j), hothers, Function.update_self]
  ring

open MvPolynomial in
theorem eval_pderiv_monomial (m : Fin n →₀ ℕ) (c : K) (v : Fin n → K) (j : Fin n) :
    eval v (pderiv j (monomial m c)) =
      m j * v j ^ (m j - 1) * (c * ∏ i ∈ Finset.univ.erase j, v i ^ m i) := by
  have hothers : ∏ i ∈ Finset.univ.erase j, v i ^ (m - Finsupp.single j 1 : Fin n →₀ ℕ) i =
      ∏ i ∈ Finset.univ.erase j, v i ^ m i :=
    Finset.prod_congr rfl fun i hi => by
      rw [Finsupp.tsub_apply, Finsupp.single_eq_of_ne (Finset.ne_of_mem_erase hi), tsub_zero]
  have hmonomial := eval_monomial_update (m - Finsupp.single j 1) (c * m j) v j (v j)
  rw [Function.update_eq_self, hothers] at hmonomial
  rw [pderiv_monomial, hmonomial, Finsupp.tsub_apply, Finsupp.single_eq_same]
  ring

open MvPolynomial in
/-- Between two places equally far to both sides, a polynomial of degree at most two changes as its
derivative in the middle says. -/
theorem eval_two_sided {p : MvPolynomial (Fin n) K} {j : Fin n} (hp : p.degreeOf j ≤ 2)
    (v : Fin n → K) (h : K) :
    eval (Function.update v j (v j + h)) p - eval (Function.update v j (v j - h)) p =
      eval v (pderiv j p) * (v j + h - (v j - h)) := by
  have hsum : ∀ w : Fin n → K, eval w p = ∑ m ∈ p.support, eval w (monomial m (coeff m p)) := by
    intro w
    rw [← map_sum, ← p.as_sum]
  have hderiv : eval v (pderiv j p) =
      ∑ m ∈ p.support, eval v (pderiv j (monomial m (coeff m p))) := by
    rw [← map_sum, ← map_sum, ← p.as_sum]
  rw [hsum, hsum, hderiv, ← Finset.sum_sub_distrib, Finset.sum_mul]
  refine Finset.sum_congr rfl fun m hm => ?_
  rw [eval_monomial_update, eval_monomial_update, eval_pderiv_monomial]
  have hdegree : m j ≤ 2 := degreeOf_le_iff.1 hp m hm
  obtain h0 | h1 | h2 : m j = 0 ∨ m j = 1 ∨ m j = 2 := by omega
  · rw [h0]
    push_cast
    ring
  · rw [h1]
    push_cast
    ring
  · rw [h2]
    push_cast
    ring

theorem secant_two_sided {p : Fin n → MvPolynomial (Fin n) K} {j : Fin n}
    (hp : ∀ i, (p i).degreeOf j ≤ 2) (v : Fin n → K) {h : K} (hne : v j + h ≠ v j - h) :
    secant (fun w i => MvPolynomial.eval w (p i)) v j (v j + h) (v j - h) =
      fun i => MvPolynomial.eval v (MvPolynomial.pderiv j (p i)) := by
  funext i
  unfold secant
  rw [eval_two_sided (hp i), mul_div_cancel_right₀ _ (sub_ne_zero.2 hne)]

end

/-! ## Requests along one unknown -/

section
variable {K : Type} {σ : Type} {n : Nat}

/-- Session `t` follows on `s`: the bounds are the same, and of the residual only the values were
asked for that have unknown `k` moved to a place `a` with `p k a`, all other unknowns being as in
`v`. -/
structure Along (v : Fin n → K) (p : Fin n → K → Prop) (s t : Session (Exact K) σ n) : Prop where
  lower : t.lower = s.lower
  upper : t.upper = s.upper
  calls : t.calls.toList = s.calls.toList ++ callsSince s t
  places : ∀ call ∈ callsSince s t, ∃ k a answer, p k a ∧
    call = .evaluate (ofField (Function.update v k a)) answer

namespace Along
variable {v : Fin n → K} {p q : Fin n → K → Prop} {s t u : Session (Exact K) σ n}

theorem of_still (hlower : t.lower = s.lower) (hupper : t.upper = s.upper)
    (hcalls : t.calls = s.calls) : Along v p s t := by
  have new : t.calls.toList = s.calls.toList ++ [] := by rw [hcalls, List.append_nil]
  refine ⟨hlower, hupper, ?_, fun call hcall => ?_⟩
  · rw [callsSince_of_eq new, new]
  · rw [callsSince_of_eq new] at hcall
    cases hcall

theorem refl (s : Session (Exact K) σ n) : Along v p s s := of_still rfl rfl rfl

theorem trans (hst : Along v p s t) (htu : Along v p t u) : Along v p s u := by
  have hcalls := callsSince_trans hst.calls htu.calls
  refine ⟨htu.lower.trans hst.lower, htu.upper.trans hst.upper, ?_, fun call hcall => ?_⟩
  · rw [hcalls, ← List.append_assoc, ← hst.calls, ← htu.calls]
  · rw [hcalls, List.mem_append] at hcall
    exact hcall.elim (hst.places call) (htu.places call)

theorem mono (h : Along v p s t) (hpq : ∀ k a, p k a → q k a) : Along v q s t :=
  ⟨h.lower, h.upper, h.calls, fun call hcall =>
    let ⟨k, a, answer, hp, e⟩ := h.places call hcall
    ⟨k, a, answer, hpq k a hp, e⟩⟩

end Along

theorem ofField_injective {y z : Fin n → K} (h : ofField y = ofField z) : y = z := by
  funext i
  have hentry := congrArg (fun w : Vector (Exact K) n => w[i.val]) h
  simp only [getElem_ofField] at hentry
  exact Exact.finite.inj hentry

/-- A place away from the middle is on one axis only. -/
theorem update_inj {v : Fin n → K} {j k : Fin n} {a c : K} (ha : a ≠ v j)
    (h : Function.update v j a = Function.update v k c) : j = k ∧ a = c := by
  have hj := congrFun h j
  rw [Function.update_self] at hj
  by_cases hjk : j = k
  · subst hjk
    rw [Function.update_self] at hj
    exact ⟨rfl, hj⟩
  · rw [Function.update_of_ne hjk] at hj
    exact absurd hj ha

/-- Nothing was found at a place away from the middle that was not asked for. -/
theorem Along.not_evaluated [Field K] [LinearOrder K] [SquareRoot K] {v : Fin n → K}
    {p : Fin n → K → Prop} {s t : Session (Exact K) σ n} (h : Along v p s t) {j : Fin n} {a : K}
    (ha : a ≠ v j) (hp : ¬ p j a) (g : Vector (Exact K) n) :
    ¬ Evaluated s t (ofField (Function.update v j a)) g := by
  rintro ⟨hcall, _⟩
  obtain ⟨k, c, answer, hc, e⟩ := h.places _ hcall
  injection e with hpoint _
  obtain ⟨rfl, rfl⟩ := update_inj ha (ofField_injective hpoint)
  exact hp hc

/-- What was found between two sessions was found before or after one that stands between them. -/
theorem evaluated_split [Field K] [LinearOrder K] [SquareRoot K] {v : Fin n → K}
    {p q : Fin n → K → Prop} {s t u : Session (Exact K) σ n} (hst : Along v p s t)
    (htu : Along v q t u) {x f : Vector (Exact K) n} (h : Evaluated s u x f) :
    Evaluated s t x f ∨ Evaluated t u x f := by
  obtain ⟨hcall, hfinite⟩ := h
  rw [callsSince_trans hst.calls htu.calls, List.mem_append] at hcall
  exact hcall.imp (⟨·, hfinite⟩) (⟨·, hfinite⟩)

end

/-! ## Columns -/

section
variable {K : Type} [Field K] [LinearOrder K] [SquareRoot K] {σ : Type} {n : Nat}

/-- Where the model answers at all, it answers with `F`. -/
def Model.Agrees (M : Model (Exact K) σ n) (F : (Fin n → K) → Fin n → K) : Prop :=
  ∀ v m y, (M.evaluate (ofField v) m).1 = .ok y → y = ofField (F v)

/-- In some state the model does not answer at `v`. -/
def Model.Refuses (M : Model (Exact K) σ n) (v : Fin n → K) : Prop :=
  ∃ m failure, (M.evaluate (ofField v) m).1 = .error failure

variable {F : (Fin n → K) → Fin n → K} {P : Problem (Exact K) σ n}

/-- An evaluation along unknown `j` gives the residual there, unless the model does not answer. -/
theorem evaluate_along (hM : P.model.Agrees F) (v : Fin n → K) (j : Fin n) (a : K)
    (s : Session (Exact K) σ n) :
    After (evaluate P (ofField (Function.update v j a))) s
      (fun answer t => Along v (fun k c => k = j ∧ c = a) s t ∧
        (answer = .ok (ofField (F (Function.update v j a))) ∨
          (∃ mishap, answer = .error mishap) ∧ P.model.Refuses (Function.update v j a) ∧
            ∀ g, ¬ Evaluated s t (ofField (Function.update v j a)) g))
      fun _ _ => P.model.Refuses (Function.update v j a) := by
  generalize hw : Function.update v j a = w
  -- One request was made, to which `reply` came.
  have requested : ∀ {t : Session (Exact K) σ n} {reply},
      t.calls = s.calls.push (.evaluate (ofField w) reply) →
        t.calls.toList = s.calls.toList ++ [.evaluate (ofField w) reply] := fun h => by
    rw [h, Array.toList_push]
  have along : ∀ {t : Session (Exact K) σ n} {reply}, t.lower = s.lower → t.upper = s.upper →
      t.calls = s.calls.push (.evaluate (ofField w) reply) →
        Along v (fun k c => k = j ∧ c = a) s t := fun {t reply} hlower hupper hcalls => by
    have new := callsSince_of_eq (requested hcalls)
    refine ⟨hlower, hupper, by rw [new, requested hcalls], fun call hcall => ?_⟩
    rw [new, List.mem_singleton] at hcall
    exact ⟨j, a, reply, ⟨rfl, rfl⟩, by rw [hcall, hw]⟩
  have refused : ∀ failure, (P.model.evaluate (ofField w) s.model).1 = .error failure →
      P.model.Refuses w := fun failure h => ⟨s.model, failure, h⟩
  refine after_evaluate (fun _ h => refused _ h) (fun reason h => ?_) (fun f i h hf => ?_)
    fun f h _ => ?_
  · have hcalls := asked_calls h
    refine ⟨along rfl rfl hcalls, .inr ⟨⟨_, rfl⟩, refused _ h, fun g hg => ?_⟩⟩
    have hcall := hg.1
    rw [callsSince_of_eq (requested hcalls), List.mem_singleton] at hcall
    injection hcall with _ hreply
    cases hreply
  · rw [hM w s.model f h, allFinite_iff.2 ⟨_, rfl⟩] at hf
    cases hf
  · obtain rfl := hM w s.model f h
    exact ⟨along rfl rfl rfl, .inl rfl⟩

end

section
variable {K : Type} [Field K] [LinearOrder K] [IsStrictOrderedRing K] [SquareRoot K] {σ : Type}
  {n : Nat} {F : (Fin n → K) → Fin n → K} {P : Problem (Exact K) σ n}
  {scale : Vector (Exact K) n} {v : Fin n → K} {j : Fin n} {h : K}

omit [IsStrictOrderedRing K] in
theorem quotients_secant (F : (Fin n → K) → Fin n → K) (v : Fin n → K) (j : Fin n) {a a' : K}
    (hne : a ≠ a') :
    quotients (ofField (F (Function.update v j a))) (ofField (F (Function.update v j a')))
      (finite (a - a')) = ofField (secant F v j a a') := by
  ext i hi
  simp only [quotients, Vector.getElem_zipWith, getElem_ofField, finite_sub]
  exact finite_div _ (sub_ne_zero.2 hne)

omit [IsStrictOrderedRing K] in
theorem inwardIncrement_finite {x scale delta : Exact K} (hmove : increment x scale delta = finite h)
    (h0 : h ≠ 0) (lower upper : Exact K) :
    ∃ d, inwardIncrement x scale delta lower upper = finite d ∧ d ≠ 0 := by
  unfold inwardIncrement
  rw [hmove]
  dsimp only
  split
  · exact ⟨-h, rfl, neg_ne_zero.2 h0⟩
  · exact ⟨h, rfl, h0⟩

/-- A one-sided column divides the change between a place and the middle, unless the model does not
answer. -/
theorem oneSidedColumn_after (hM : P.model.Agrees F)
    (hmove : increment (finite (v j)) scale[j] P.options.differenceStep = finite h) (h0 : h ≠ 0)
    (s : Session (Exact K) σ n) :
    After (oneSidedColumn P scale (ofField v) (ofField (F v)) j) s
      (fun answer t => Along v (fun k _ => k = j) s t ∧
        ((∃ a, a ≠ v j ∧ answer = .ok (ofField (secant F v j a (v j)))) ∨
          (∃ mishap, answer = .error mishap) ∧ ∃ w, P.model.Refuses w))
      fun _ _ => ∃ w, P.model.Refuses w := by
  obtain ⟨d, hd, hne⟩ := inwardIncrement_finite hmove h0 s.lower[j] s.upper[j]
  have hx : (ofField v)[j] = finite (v j) := getElem_ofField v j j.isLt
  have away : ∀ e : K, e ≠ 0 → v j + e ≠ v j := fun e he heq => he (add_eq_left.1 heq)
  have hquotients : ∀ e : K, e ≠ 0 →
      quotients (ofField (F (Function.update v j (v j + e)))) (ofField (F v))
        (finite (v j + e - v j)) = ofField (secant F v j (v j + e) (v j)) := by
    intro e he
    have hsecant := quotients_secant F v j (away e he)
    rwa [Function.update_eq_self] at hsecant
  unfold oneSidedColumn
  rw [after_congr (get_bind_apply _ s), hx, hd]
  dsimp only
  rw [finite_neg, finite_add, finite_add, ofField_set, ofField_set, finite_sub, finite_sub]
  refine after_bind.2 ((evaluate_along hM v j (v j + d) s).mono (fun answer t _ hst => ?_)
    fun _ _ _ hrefused => ⟨_, hrefused⟩)
  obtain ⟨hst, rfl | ⟨⟨mishap, rfl⟩, hrefused, _⟩⟩ := hst
  · exact ⟨hst.mono fun _ _ hk => hk.1, .inl ⟨v j + d, away d hne, congrArg _ (hquotients d hne)⟩⟩
  · -- The other side is tried.
    refine after_bind.2 ((evaluate_along hM v j (v j + -d) t).mono (fun answer u _ htu => ?_)
      fun _ _ _ hrefused => ⟨_, hrefused⟩)
    obtain ⟨htu, rfl | ⟨⟨mishap', rfl⟩, _, _⟩⟩ := htu
    · have hne' : -d ≠ 0 := neg_ne_zero.2 hne
      exact ⟨(hst.mono fun _ _ hk => hk.1).trans (htu.mono fun _ _ hk => hk.1),
        .inl ⟨v j + -d, away _ hne', congrArg _ (hquotients _ hne')⟩⟩
    · exact ⟨(hst.mono fun _ _ hk => hk.1).trans (htu.mono fun _ _ hk => hk.1),
        .inr ⟨⟨mishap, rfl⟩, _, hrefused⟩⟩

/-- A side of a two-sided quotient reaches its end, or stays in the middle where the model does not
answer. -/
structure Reaches (P : Problem (Exact K) σ n) (v : Fin n → K) (j : Fin n) (s t : Session (Exact K) σ n)
    (room a reached : K) : Prop where
  along : Along v (fun k c => k = j ∧ c = a) s t
  fully : reached = room ∨ reached = 0 ∧ 0 < room ∧ P.model.Refuses (Function.update v j a) ∧
    ∀ g, ¬ Evaluated s t (ofField (Function.update v j a)) g

omit [IsStrictOrderedRing K] in
/-- The residual at the end of a side is the one at the place that it reaches. -/
theorem Reaches.end_eq {s t : Session (Exact K) σ n} {room a reached : K}
    (h : Reaches P v j s t room a reached) (place : K → K) :
    (if reached = 0 then place 0 else place room) = place reached := by
  split
  · next hzero => rw [hzero]
  · next hmoved => rw [h.fully.resolve_right fun hback => hmoved hback.1]

omit [IsStrictOrderedRing K] in
theorem probeSide_after (hM : P.model.Agrees F) {room : K} (hroom : 0 ≤ room) (a : K)
    (s : Session (Exact K) σ n) :
    After (probeSide P (ofField v) (ofField (F v)) j (finite room) (finite a) (finite room)) s
      (fun answer t => ∃ reached, Reaches P v j s t room a reached ∧
        answer = (finite reached, ofField (F (Function.update v j (if reached = 0 then v j else a)))))
      fun _ _ => ∃ w, P.model.Refuses w := by
  unfold probeSide
  rw [zero_eq]
  by_cases hpos : 0 < room
  · have hopen : (finite room : Exact K) > finite 0 := finite_lt_finite.2 hpos
    rw [if_pos hopen, ofField_set]
    refine after_bind.2 ((evaluate_along hM v j a s).mono (fun answer t _ hst => ?_)
      fun _ _ _ hrefused => ⟨_, hrefused⟩)
    obtain ⟨hst, rfl | ⟨⟨mishap, rfl⟩, hrefused, hnone⟩⟩ := hst
    · dsimp only
      rw [if_pos hopen]
      exact ⟨room, ⟨hst, .inl rfl⟩, by rw [if_neg hpos.ne']⟩
    · exact ⟨0, ⟨hst, .inr ⟨rfl, hpos, hrefused, hnone⟩⟩, by
        rw [if_pos rfl, Function.update_eq_self]⟩
  · have hzero : room = 0 := le_antisymm (not_lt.1 hpos) hroom
    have hshut : ¬ (finite room : Exact K) > finite 0 := fun h => hpos (finite_lt_finite.1 h)
    rw [if_neg hshut]
    exact ⟨room, ⟨.refl s, .inl rfl⟩, by rw [if_pos hzero, Function.update_eq_self]⟩

omit [IsStrictOrderedRing K] in
/-- A two-sided column divides the change between the places that its sides reach. It is not defined
where these are both the middle. -/
theorem twoSidedColumn_after (hM : P.model.Agrees F)
    (hmove : increment (finite (v j)) scale[j] P.options.differenceStep = finite h)
    {s : Session (Exact K) σ n} {right left : K} (hright : 0 ≤ right) (hleft : 0 ≤ left)
    (hroomRight : larger (smaller (s.upper[j] - finite (v j)) (finite |h|)) 0 = finite right)
    (hroomLeft : larger (smaller (finite (v j) - s.lower[j]) (finite |h|)) 0 = finite left) :
    After (twoSidedColumn P scale (ofField v) (ofField (F v)) j) s
      (fun answer u => ∃ r l t, Reaches P v j s t right (v j + right) r ∧
        Reaches P v j t u left (v j - left) l ∧
        (r + l = 0 ∧ answer = .error (.undefinedAround j) ∨
          v j + r ≠ v j - l ∧ answer = .ok (ofField (secant F v j (v j + r) (v j - l)))))
      fun _ _ => ∃ w, P.model.Refuses w := by
  have hx : (ofField v)[j] = finite (v j) := getElem_ofField v j j.isLt
  unfold twoSidedColumn
  rw [after_congr (get_bind_apply _ s), hx, hmove, abs_finite]
  dsimp only
  rw [hroomRight, hroomLeft, finite_add, finite_sub, finite_sub, finite_sub, add_sub_cancel_left,
    sub_sub_cancel]
  refine after_bind.2 ((probeSide_after hM hright (v j + right) s).mono (fun answer t _ hst => ?_)
    fun _ _ _ hrefused => hrefused)
  obtain ⟨r, hst, rfl⟩ := hst
  refine after_bind.2 ((probeSide_after hM hleft (v j - left) t).mono (fun answer u _ htu => ?_)
    fun _ _ _ hrefused => hrefused)
  obtain ⟨l, htu, rfl⟩ := htu
  dsimp only
  rw [finite_add, zero_eq]
  have hendRight : (if r = 0 then v j else v j + right) = v j + r := by
    simpa only [add_zero] using hst.end_eq (v j + ·)
  have hendLeft : (if l = 0 then v j else v j - left) = v j - l := by
    simpa only [sub_zero] using htu.end_eq (v j - ·)
  have hspan : r + l = v j + r - (v j - l) := by ring
  rw [hendRight, hendLeft]
  by_cases hwidth : r + l = 0
  · rw [hwidth, if_pos (beq_iff.2 ⟨le_refl (0 : K), le_refl (0 : K)⟩)]
    exact ⟨r, l, t, hst, htu, .inl ⟨hwidth, rfl⟩⟩
  · have hne : ¬ ((finite (r + l) : Exact K) == finite 0) = true := fun hbeq =>
      hwidth (le_antisymm (beq_iff.1 hbeq).1 (beq_iff.1 hbeq).2)
    have hplaces : v j + r ≠ v j - l := fun heq => hwidth (by rw [hspan, heq, sub_self])
    rw [if_neg hne, hspan, quotients_secant F v j hplaces]
    exact ⟨r, l, t, hst, htu, .inr ⟨hplaces, rfl⟩⟩

end

/-! ## Matrices -/

section
variable {α σ : Type} {n : Nat}

/-- Behind each column that was filled in stands a run of its action. What the actions of the other
columns do comes before and after it. -/
theorem fillColumns_runs {column : Fin n → Action α σ n (Except Mishap (Vector α n))}
    {publish : Mat α n n → Action α σ n Unit} (others : Fin n → Session α σ n → Session α σ n → Prop)
    (refl : ∀ j s, others j s s) (trans : ∀ j s t u, others j s t → others j t u → others j s u)
    (hcolumn : ∀ j k s t answer, k ≠ j → column k s = .ok answer t → others j s t)
    (hpublish : ∀ j A s t, publish A s = .ok () t → others j s t) {l : List (Fin n)} (hl : l.Nodup)
    {A B : Mat α n n} {s t : Session α σ n}
    (hrun : fillColumns column publish l A s = .ok (.ok B) t) (j : Fin n) :
    (j ∉ l ∧ others j s t ∧ ∀ i : Fin n, B[i][j] = A[i][j]) ∨
      j ∈ l ∧ ∃ r u entries, others j s r ∧ column j r = .ok (.ok entries) u ∧ others j u t ∧
        ∀ i : Fin n, B[i][j] = entries[i] := by
  induction l generalizing A s with
  | nil =>
    cases hrun
    exact .inl ⟨List.not_mem_nil, refl j _, fun _ => rfl⟩
  | cons k rest ih =>
    obtain ⟨hk, hrest⟩ := List.nodup_cons.1 hl
    unfold fillColumns at hrun
    obtain ⟨answer, r, hr, hrun⟩ := bind_eq_ok.1 hrun
    cases answer with
    | error mishap => cases hrun
    | ok c =>
      obtain ⟨_, u, hu, hrun⟩ := bind_eq_ok.1 hrun
      have hpublished := hpublish j _ r u hu
      obtain ⟨hj, hothers, hentries⟩ | ⟨hj, r', u', c', hbefore, hcol, hafter, hentries⟩ :=
        ih hrest hrun
      · by_cases hjk : k = j
        · subst hjk
          refine .inr ⟨List.mem_cons_self, s, r, c, refl k s, hr, trans k r u t hpublished hothers,
            fun i => ?_⟩
          rw [hentries, Mat.setColumn_entry, if_pos rfl]
        · refine .inl ⟨?_, ?_, fun i => ?_⟩
          · simp [Ne.symm hjk, hj]
          · exact trans j s r t (hcolumn j k s r _ hjk hr) (trans j r u t hpublished hothers)
          · rw [hentries, Mat.setColumn_entry, if_neg hjk]
      · have hjk : k ≠ j := fun h => hk (h ▸ hj)
        exact .inr ⟨List.mem_cons_of_mem k hj, r', u', c',
          trans j s r r' (hcolumn j k s r _ hjk hr) (trans j r u r' hpublished hbefore), hcol, hafter,
          hentries⟩

end

section
variable {K : Type} [Field K] [LinearOrder K] [IsStrictOrderedRing K] [SquareRoot K] {σ : Type}
  {n : Nat} {F : (Fin n → K) → Fin n → K} {P : Problem (Exact K) σ n} {u : Fin n → K} {δ : K}

/-- How far unknown `j` is moved for its quotients. -/
def reachOf (u : Fin n → K) (δ : K) (v : Fin n → K) (j : Fin n) : K := max |v j| (1 / u j) * δ

omit [SquareRoot K] in
theorem reachOf_pos (hu : ∀ j, 0 < u j) (hδ : 0 < δ) (v : Fin n → K) (j : Fin n) :
    0 < reachOf u δ v j :=
  mul_pos (lt_max_of_lt_right (one_div_pos.2 (hu j))) hδ

theorem increment_reachOf (hu : ∀ j, 0 < u j) (hstep : P.options.differenceStep = finite δ)
    (hδ : 0 < δ) (v : Fin n → K) (j : Fin n) :
    ∃ d, increment (finite (v j)) (ofField u)[j] P.options.differenceStep = finite d ∧
      |d| = reachOf u δ v j ∧ d ≠ 0 := by
  have hsize : ∀ k : Fin n, 1 / (ofField u)[k] = finite (1 / u k) := fun k => by
    rw [getElem_position, getElem_ofField, one_eq]
    exact finite_div 1 (hu k).ne'
  have hpos := reachOf_pos hu hδ v j
  refine ⟨_, moves_of_sizes hsize hstep v j, ?_⟩
  dsimp only
  change |if v j < 0 then -reachOf u δ v j else reachOf u δ v j| = _ ∧
    (if v j < 0 then -reachOf u δ v j else reachOf u δ v j) ≠ 0
  split
  · exact ⟨by rw [abs_neg, abs_of_pos hpos], neg_ne_zero.2 hpos.ne'⟩
  · exact ⟨abs_of_pos hpos, hpos.ne'⟩

/-- A side with a bound far enough away has the whole reach for its room. -/
theorem room_of_far {gap : Exact K} {h : K} (h0 : 0 < h) (hgap : finite h ≤ gap) :
    larger (smaller gap (finite h)) 0 = finite h := by
  have hreal : isNaN (finite h : Exact K) = false := isNaN_eq_false_iff.2 (finite_ne_nan h)
  have hshort : ¬ gap < finite h := LawfulScalar.not_lt_of_le hgap
  unfold smaller
  rw [hreal, if_neg (by simp [hshort]), zero_eq, larger_finite, max_eq_left h0.le]

theorem exact_le_sub {a h : K} {y : Exact K} :
    (finite (a + h) ≤ y → finite h ≤ y - finite a) ∧
      (y ≤ finite (a - h) → finite h ≤ finite a - y) := by
  cases y with
  | finite c =>
    rw [finite_sub, finite_sub]
    simp only [finite_le_finite]
    exact ⟨fun hle => by linarith, fun hle => by linarith⟩
  | posInfinity => exact ⟨fun _ => trivial, fun hle => hle.elim⟩
  | negInfinity => exact ⟨fun hle => hle.elim, fun _ => trivial⟩
  | nan => exact ⟨fun hle => hle.elim, fun hle => hle.elim⟩

omit [IsStrictOrderedRing K] in
/-- A side that finds the residual at its end reaches it. -/
theorem Reaches.reached_eq {v : Fin n → K} {j : Fin n} {s t : Session (Exact K) σ n}
    {room a reached : K} (h : Reaches P v j s t room a reached) {g : Vector (Exact K) n}
    (hfound : Evaluated s t (ofField (Function.update v j a)) g) : reached = room :=
  h.fully.resolve_right fun ⟨_, _, _, hnone⟩ => hnone g hfound

/-- The column of unknown `j` at `v`, where the residual is `f`. -/
def columnAt (P : Problem (Exact K) σ n) (u : Fin n → K) (twoSided : Fin n → Bool) (v f : Fin n → K)
    (j : Fin n) : Action (Exact K) σ n (Except Mishap (Vector (Exact K) n)) :=
  if twoSided j then twoSidedColumn P (ofField u) (ofField v) (ofField f) j
  else oneSidedColumn P (ofField u) (ofField v) (ofField f) j

/-- Between `s` and `t` the residual was found at both ends of the reach of unknown `j`, and both
are between the bounds. -/
structure FoundBothSides (u : Fin n → K) (δ : K) (v : Fin n → K) (j : Fin n)
    (s t : Session (Exact K) σ n) : Prop where
  lower : s.lower[j] ≤ finite (v j - reachOf u δ v j)
  upper : finite (v j + reachOf u δ v j) ≤ s.upper[j]
  left : ∃ g, Evaluated s t (ofField (Function.update v j (v j - reachOf u δ v j))) g
  right : ∃ g, Evaluated s t (ofField (Function.update v j (v j + reachOf u δ v j))) g

/-- A column is a quotient between two places of its unknown. These are the two ends of its reach
where the column is two-sided and the residual was found at both. -/
theorem columnAt_secant (hM : P.model.Agrees F) (hu : ∀ j, 0 < u j)
    (hstep : P.options.differenceStep = finite δ) (hδ : 0 < δ) {twoSided : Fin n → Bool}
    {v : Fin n → K} {j : Fin n} {s t : Session (Exact K) σ n}
    {answer : Except Mishap (Vector (Exact K) n)}
    (hrun : columnAt P u twoSided v (F v) j s = .ok answer t) :
    Along v (fun k _ => k = j) s t ∧ ∀ c, answer = .ok c →
      ∃ a a', a ≠ a' ∧ c = ofField (secant F v j a a') ∧
        (twoSided j = true → FoundBothSides u δ v j s t →
          a = v j + reachOf u δ v j ∧ a' = v j - reachOf u δ v j) := by
  have hpos := reachOf_pos hu hδ v j
  obtain ⟨d, hmove, habs, h0⟩ := increment_reachOf hu hstep hδ v j
  unfold columnAt at hrun
  by_cases htwo : twoSided j = true
  · rw [if_pos htwo] at hrun
    obtain ⟨right, hroomRight, hright, -⟩ := room_finite (s.upper[j] - finite (v j)) d
    obtain ⟨left, hroomLeft, hleft, -⟩ := room_finite (finite (v j) - s.lower[j]) d
    obtain ⟨r, l, m, hsm, hmt, houtcome⟩ :=
      (twoSidedColumn_after hM hmove hright hleft hroomRight hroomLeft).ok hrun
    have halong := (hsm.along.mono (q := fun k _ => k = j) fun _ _ h => h.1).trans
      (hmt.along.mono fun _ _ h => h.1)
    refine ⟨halong, fun c hc => ?_⟩
    obtain ⟨_, rfl⟩ | ⟨hne, rfl⟩ := houtcome
    · cases hc
    · refine ⟨_, _, hne, (Except.ok.inj hc).symm, fun _ hfound => ?_⟩
      rw [habs] at hroomRight hroomLeft
      obtain rfl : reachOf u δ v j = right := Exact.finite.inj
        ((room_of_far hpos (exact_le_sub.1 hfound.upper)).symm.trans hroomRight)
      obtain rfl : reachOf u δ v j = left := Exact.finite.inj
        ((room_of_far hpos (exact_le_sub.2 hfound.lower)).symm.trans hroomLeft)
      -- What was found at one end was found by the side that goes there.
      obtain ⟨gRight, hfoundRight⟩ := hfound.right
      obtain ⟨gLeft, hfoundLeft⟩ := hfound.left
      have hright : Evaluated s m (ofField (Function.update v j (v j + reachOf u δ v j))) gRight :=
        (evaluated_split hsm.along hmt.along hfoundRight).resolve_right
          (hmt.along.not_evaluated (by linarith) (fun h => by linarith [h.2]) _)
      have hleft : Evaluated m t (ofField (Function.update v j (v j - reachOf u δ v j))) gLeft :=
        (evaluated_split hsm.along hmt.along hfoundLeft).resolve_left
          (hsm.along.not_evaluated (by linarith) (fun h => by linarith [h.2]) _)
      rw [hsm.reached_eq hright, hmt.reached_eq hleft]
      exact ⟨rfl, rfl⟩
  · rw [if_neg htwo] at hrun
    obtain ⟨halong, houtcome⟩ := (oneSidedColumn_after hM hmove h0 s).ok hrun
    refine ⟨halong, fun c hc => ?_⟩
    obtain ⟨a, hne, rfl⟩ | ⟨⟨mishap, rfl⟩, _⟩ := houtcome
    · exact ⟨a, v j, hne, (Except.ok.inj hc).symm, fun h => absurd h htwo⟩
    · cases hc

/-- An action that has no part in the bounds and makes no request. -/
def Quiet (a : Action (Exact K) σ n Unit) : Prop :=
  ∀ s t, a s = .ok () t → t.lower = s.lower ∧ t.upper = s.upper ∧ t.calls = s.calls

omit [Field K] [LinearOrder K] [IsStrictOrderedRing K] [SquareRoot K] in
theorem storeJacobian_quiet (B : Mat (Exact K) n n) :
    Quiet (storeJacobian B : Action (Exact K) σ n Unit) := by
  rintro s t ⟨⟩
  exact ⟨rfl, rfl, rfl⟩

/-- Every column of a matrix of differences is a quotient between two places of its unknown. -/
theorem differences_secants (hM : P.model.Agrees F) (hu : ∀ j, 0 < u j)
    (hstep : P.options.differenceStep = finite δ) (hδ : 0 < δ) {twoSided : Fin n → Bool}
    {publish : Mat (Exact K) n n → Action (Exact K) σ n Unit} (hpublish : ∀ B, Quiet (publish B))
    {v : Fin n → K} {s t : Session (Exact K) σ n} {A B : Mat (Exact K) n n}
    (hrun : differences P (ofField u) twoSided (ofField v) (ofField (F v)) publish A s = .ok (.ok B) t)
    (j : Fin n) :
    ∃ a a', a ≠ a' ∧ (∀ i : Fin n, B[i][j] = finite (secant F v j a a' i)) ∧
      (twoSided j = true → FoundBothSides u δ v j s t →
        a = v j + reachOf u δ v j ∧ a' = v j - reachOf u δ v j) := by
  have hpos := reachOf_pos hu hδ v j
  have hcolumn : ∀ j k s t answer, k ≠ j → columnAt P u twoSided v (F v) k s = .ok answer t →
      Along v (fun i _ => i ≠ j) s t := fun j k s t answer hkj hk =>
    (columnAt_secant hM hu hstep hδ hk).1.mono fun i _ hi => hi ▸ hkj
  obtain ⟨hj, -⟩ | ⟨-, r, m, c, hbefore, hcol, hafter, hentries⟩ :=
    fillColumns_runs (fun j => Along v fun i _ => i ≠ j) (fun _ s => .refl s)
      (fun _ _ _ _ => .trans) hcolumn
      (fun _ A s t h => let ⟨hl, hu, hc⟩ := hpublish A s t h; .of_still hl hu hc)
      (List.nodup_finRange n) hrun j
  · exact absurd (List.mem_finRange j) hj
  · obtain ⟨halong, hsecant⟩ := columnAt_secant hM hu hstep hδ hcol
    obtain ⟨a, a', hne, rfl, hends⟩ := hsecant c rfl
    refine ⟨a, a', hne, fun i => ?_, fun htwo hfound => hends htwo ?_⟩
    · rw [hentries, getElem_position, getElem_ofField]
    · -- Other columns do not ask for the residual there.
      have here : ∀ {e : K} {g}, e ≠ v j → Evaluated s t (ofField (Function.update v j e)) g →
          Evaluated r m (ofField (Function.update v j e)) g := by
        intro e g he hev
        have hlate := (evaluated_split (hbefore.mono (q := fun _ _ => True) fun _ _ _ => trivial)
          ((halong.mono (q := fun _ _ => True) fun _ _ _ => trivial).trans
            (hafter.mono fun _ _ _ => trivial)) hev).resolve_left
          (hbefore.not_evaluated he (fun h => h rfl) _)
        exact (evaluated_split halong hafter hlate).resolve_right
          (hafter.not_evaluated he (fun h => h rfl) _)
      obtain ⟨gl, hl⟩ := hfound.left
      obtain ⟨gr, hr⟩ := hfound.right
      exact ⟨by rw [hbefore.lower]; exact hfound.lower, by rw [hbefore.upper]; exact hfound.upper,
        ⟨gl, here (by linarith) hl⟩, ⟨gr, here (by linarith) hr⟩⟩

/-- Without rounding, the matrix of differences of an affine residual is the matrix of the residual,
wherever the model answers; and the column of a two-sided quotient of a residual of degree at most
two in each unknown holds the derivatives, where the residual was found at both ends of the reach,
between the bounds. -/
theorem differences_exact (hu : ∀ j, 0 < u j) (hstep : P.options.differenceStep = finite δ)
    (hδ : 0 < δ) (twoSided : Fin n → Bool)
    {publish : Mat (Exact K) n n → Action (Exact K) σ n Unit} (hpublish : ∀ B, Quiet (publish B))
    (v : Fin n → K) (s t : Session (Exact K) σ n) (B₀ B : Mat (Exact K) n n) :
    (∀ A b, P.model.Agrees (affine A b) →
      differences P (ofField u) twoSided (ofField v) (ofField (affine A b v)) publish B₀ s =
        .ok (.ok B) t → B = ofMatrix A) ∧
    ∀ p : Fin n → MvPolynomial (Fin n) K, (∀ i j, (p i).degreeOf j ≤ 2) →
      P.model.Agrees (fun w i => MvPolynomial.eval w (p i)) →
      differences P (ofField u) twoSided (ofField v) (ofField fun i => MvPolynomial.eval v (p i))
        publish B₀ s = .ok (.ok B) t →
      ∀ j, twoSided j = true → FoundBothSides u δ v j s t →
        ∀ i : Fin n, B[i][j] = finite (MvPolynomial.eval v (MvPolynomial.pderiv j (p i))) := by
  refine ⟨fun A b hM hrun => ?_, fun p hp hM hrun j htwo hfound i => ?_⟩
  · refine Vector.ext fun i hi => Vector.ext fun j hj => ?_
    obtain ⟨a, a', hne, hentries, -⟩ :=
      differences_secants hM hu hstep hδ hpublish hrun ⟨j, hj⟩
    rw [getElem_ofMatrix, getElem_ofField]
    refine (hentries ⟨i, hi⟩).trans ?_
    rw [secant_affine A b v ⟨j, hj⟩ hne]
  · obtain ⟨a, a', hne, hentries, hends⟩ := differences_secants hM hu hstep hδ hpublish hrun j
    obtain ⟨rfl, rfl⟩ := hends htwo hfound
    rw [hentries, secant_two_sided (fun i => hp i j) v hne]

end

/-! ## Quotients of rational numbers -/

/-- The loop of a residual that is a function of the point, moved by an eighth for its quotients. -/
def eighthProblem (f : Vector (Exact ℚ) 2 → Except EvalFailure (Vector (Exact ℚ) 2)) :
    Problem (Exact ℚ) Unit 2 where
  label := "loop"
  options := { (Options.standard : Options (Exact ℚ)) with differenceStep := finite (1 / 8) }
  model := Model.ofFunction f
  auxiliaryCount := 0
  variability := .continuous

def slopes : Fin 2 → Fin 2 → ℚ := ![![2, -1], ![0, 3]]

/-- An affine residual that is undefined where the first unknown is above one. -/
def brink (x : Vector (Exact ℚ) 2) : Except EvalFailure (Vector (Exact ℚ) 2) :=
  if getElem x 0 Nat.zero_lt_two > 1 then .error (.recoverable "undefined")
  else .ok ((ofMatrix slopes).apply x)

theorem brink_agrees : (eighthProblem brink).model.Agrees (affine slopes 0) := by
  intro v m y hy
  change brink (ofField v) = .ok y at hy
  unfold brink at hy
  split at hy
  · cases hy
  · rw [← Except.ok.inj hy, apply_ofMatrix]
    unfold affine
    simp only [Pi.zero_apply, sub_zero]

open MvPolynomial in
/-- Two products of degree at most two in each unknown. -/
noncomputable def products : Fin 2 → MvPolynomial (Fin 2) ℚ :=
  ![X ⟨0, Nat.zero_lt_two⟩ ^ 2 * X ⟨1, Nat.one_lt_two⟩,
    X ⟨0, Nat.zero_lt_two⟩ * X ⟨1, Nat.one_lt_two⟩ ^ 2]

open MvPolynomial in
theorem products_degree (i j : Fin 2) : (products i).degreeOf j ≤ 2 := by
  have hpower : ∀ (k : Fin 2) (e : ℕ),
      (X k ^ e : MvPolynomial (Fin 2) ℚ).degreeOf j ≤ e * if j = k then 1 else 0 := fun k e => by
    rw [← degreeOf_X (R := ℚ)]
    exact degreeOf_pow_le j (X k) e
  have hproduct : ∀ a b : ℕ, (X 0 ^ a * X 1 ^ b : MvPolynomial (Fin 2) ℚ).degreeOf j ≤
      (a * if j = 0 then 1 else 0) + b * if j = 1 then 1 else 0 := fun a b =>
    (degreeOf_mul_le j _ _).trans (Nat.add_le_add (hpower 0 a) (hpower 1 b))
  have hsmall : ∀ k : Fin 2, (2 * if k = 0 then 1 else 0) + (1 * if k = 1 then 1 else 0) ≤ 2 ∧
      (1 * if k = 0 then 1 else 0) + (2 * if k = 1 then 1 else 0) ≤ 2 := by decide
  match i with
  | 0 => exact (pow_one (X 1 : MvPolynomial (Fin 2) ℚ) ▸ hproduct 2 1).trans (hsmall j).1
  | 1 => exact (pow_one (X 0 : MvPolynomial (Fin 2) ℚ) ▸ hproduct 1 2).trans (hsmall j).2

/-- The products as a residual. -/
def multiply : Vector (Exact ℚ) 2 → Except EvalFailure (Vector (Exact ℚ) 2) :=
  onTwo fun x y => .ok (pair (x * x * y) (x * (y * y)))

theorem ofField_products (v : Fin 2 → ℚ) :
    ofField (fun i => MvPolynomial.eval v (products i)) =
      #v[finite (v 0 * v 0 * v 1), finite (v 0 * (v 1 * v 1))] := by
  refine Vector.ext fun i hi => ?_
  rw [getElem_ofField]
  match i, hi with
  | 0, _ => simp [products, pow_two]
  | 1, _ => simp [products, pow_two]

theorem multiply_agrees : (eighthProblem multiply).model.Agrees
    fun v i => MvPolynomial.eval v (products i) := by
  intro v m y hy
  rw [ofField_products]
  have hy : multiply (ofField v) = .ok y := hy
  unfold multiply onTwo at hy
  simp only [getElem_ofField, finite_mul] at hy
  exact (Except.ok.inj hy).symm

/-- Was the residual found at `x` between the two sessions? -/
def foundAt (x : Vector (Exact ℚ) 2) (s t : Session (Exact ℚ) Unit 2) : Bool :=
  (callsSince s t).any fun call =>
    match call with
    | .evaluate y (.ok f) => decide (y = x) && allFinite f
    | _ => false

theorem evaluated_of_foundAt {x : Vector (Exact ℚ) 2} {s t : Session (Exact ℚ) Unit 2}
    (h : foundAt x s t = true) : ∃ f, Evaluated s t x f := by
  obtain ⟨call, hcall, hfound⟩ := List.any_eq_true.1 h
  split at hfound
  · next y f =>
    obtain ⟨hpoint, hfinite⟩ := Bool.and_eq_true_iff.1 hfound
    obtain rfl := of_decide_eq_true hpoint
    exact ⟨f, hcall, hfinite⟩
  · cases hfound

set_option maxRecDepth 100000 in
/-- The affine residual is differenced to the left of the brink only, the products to both sides. -/
theorem differences_exact_eighth :
    (∃ B t, differences (eighthProblem brink) (ofField ![1, 1]) (fun _ => true) (ofField ![1, 1])
        (ofField (affine slopes 0 ![1, 1])) storeJacobian (Mat.zero 2 2) (Session.fresh 2 ()) =
          .ok (.ok B) t ∧ B = ofMatrix slopes) ∧
      ∃ B t, differences (eighthProblem multiply) (ofField ![1, 1]) (fun _ => true) (ofField ![1, 2])
          (ofField fun i => MvPolynomial.eval ![1, 2] (products i)) storeJacobian (Mat.zero 2 2)
          (Session.fresh 2 ()) = .ok (.ok B) t ∧
        ∀ i j : Fin 2, B[i][j] =
          finite (MvPolynomial.eval ![1, 2] (MvPolynomial.pderiv j (products i))) := by
  have hu : ∀ j : Fin 2, 0 < (![1, 1] : Fin 2 → ℚ) j := by decide +kernel
  have hδ : (0 : ℚ) < 1 / 8 := by norm_num
  constructor
  · have hrun : comesTo (differences (eighthProblem brink) (ofField ![1, 1]) (fun _ => true)
        (ofField ![1, 1]) (ofField (affine slopes 0 ![1, 1])) storeJacobian (Mat.zero 2 2))
        (Session.fresh 2 ()) (fun answer _ => answer.isOk) = true := by decide +kernel
    obtain ⟨answer, t, ht, hanswer⟩ := exists_of_comesTo hrun
    cases answer with
    | error mishap => cases hanswer
    | ok B =>
      exact ⟨B, t, ht, (differences_exact hu rfl hδ _ storeJacobian_quiet _ _ t _ B).1 slopes 0
        brink_agrees ht⟩
  · rw [ofField_products]
    have hrun : comesTo (differences (eighthProblem multiply) (ofField ![1, 1]) (fun _ => true)
        (ofField ![1, 2])
        #v[finite (![1, 2] 0 * ![1, 2] 0 * ![1, 2] 1), finite (![1, 2] 0 * (![1, 2] 1 * ![1, 2] 1))]
        storeJacobian (Mat.zero 2 2)) (Session.fresh 2 ()) (fun answer t => answer.isOk &&
          decide (∀ j : Fin 2,
            foundAt (ofField (Function.update ![1, 2] j
                (![1, 2] j - reachOf ![1, 1] (1 / 8) ![1, 2] j))) (Session.fresh 2 ()) t = true ∧
              foundAt (ofField (Function.update ![1, 2] j
                (![1, 2] j + reachOf ![1, 1] (1 / 8) ![1, 2] j))) (Session.fresh 2 ()) t = true)) =
            true := by
      decide +kernel
    obtain ⟨answer, t, ht, hanswer⟩ := exists_of_comesTo hrun
    obtain ⟨hanswer, hfound⟩ := Bool.and_eq_true_iff.1 hanswer
    cases answer with
    | error mishap => cases hanswer
    | ok B =>
      have hcolumns := (differences_exact hu rfl hδ _ storeJacobian_quiet ![1, 2]
        (Session.fresh 2 ()) t _ B).2 products products_degree multiply_agrees
        (by rw [ofField_products]; exact ht)
      refine ⟨B, t, ht, fun i j => hcolumns j rfl ?_ i⟩
      obtain ⟨hleft, hright⟩ := of_decide_eq_true hfound j
      have hunbounded : ∀ k : Fin 2, (Session.fresh (α := Exact ℚ) 2 ()).lower[k] = negInfinity ∧
          (Session.fresh (α := Exact ℚ) 2 ()).upper[k] = posInfinity := by decide
      exact ⟨by rw [(hunbounded j).1]; trivial, by rw [(hunbounded j).2]; trivial,
        evaluated_of_foundAt hleft, evaluated_of_foundAt hright⟩

end AlgebraicLoop
