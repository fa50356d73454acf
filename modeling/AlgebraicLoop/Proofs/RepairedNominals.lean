import AlgebraicLoop.Proofs.InsideBounds
import AlgebraicLoop.Proofs.NearestPoints

/-!
# Repaired nominal values

A nominal value that cannot be used is replaced. Without rounding, what it is replaced by is finite,
lies between the bounds, and is not zero unless the bounds leave nothing else. So it can be used
itself, whatever the initial guess, and no value is repaired twice.

* `nominalUsable_iff`: the nominal values that are kept;
* `Substitutes`: what can stand in for a nominal value;
* `intervalNominal_substitutes`, `nominalAbove_substitutes`, `nominalBelow_substitutes`: the points
  that are taken between two bounds and next to a single one;
* `repairNominal_admissible`: all nominal values.
-/

namespace AlgebraicLoop
set_option autoImplicit false

open Exact

/-- The number lies between the bounds, and is zero only where nothing else does. -/
structure Substitutes {α : Type} [Scalar α] (lower upper x : α) : Prop where
  within : Within lower upper x
  nonzero : x = 0 → lower = 0 ∧ upper = 0

section
variable {K : Type} [Field K] [LinearOrder K] [IsStrictOrderedRing K] [SquareRoot K]
  {lower upper nominal initial : Exact K} {a b : K}

/-! ## Values that are kept -/

theorem exact_beq_iff {x y : Exact K} : (x == y) = true ↔ x = y ∧ x ≠ nan := by
  rw [beq_iff]
  constructor
  · exact fun ⟨h, h'⟩ => ⟨exact_le_antisymm h h', (ne_nan_of_le h).1⟩
  · rintro ⟨rfl, hx⟩
    exact ⟨exact_le_self hx, exact_le_self hx⟩

omit [IsStrictOrderedRing K] in
theorem finite_eq_zero : (finite a : Exact K) = 0 ↔ a = 0 := by
  rw [zero_eq]
  exact ⟨Exact.finite.inj, congrArg finite⟩

/-- A nominal value is kept that was given, is finite and lies between the bounds. -/
theorem nominalUsable_iff : nominalUsable nominal lower upper = true ↔
    nominal ≠ greatest ∧ isFinite nominal = true ∧ Within lower upper nominal := by
  have hgiven : (!(nominal == greatest)) = true ∧ isFinite nominal = true ↔
      nominal ≠ greatest ∧ isFinite nominal = true := by
    refine and_congr_left fun hfinite => ?_
    have hreal : nominal ≠ nan := by
      rintro rfl
      cases hfinite
    rw [Bool.not_eq_true', ← Bool.not_eq_true, exact_beq_iff]
    exact not_congr (and_iff_left hreal)
  unfold nominalUsable Within
  rw [Bool.and_eq_true, Bool.and_eq_true, Bool.and_eq_true, decide_eq_true_iff, decide_eq_true_iff,
    hgiven, and_assoc, and_assoc]

/-! ## Points of an interval -/

/-- The point that is taken between two bounds. -/
theorem intervalNominal_substitutes (h : a ≤ b) :
    Substitutes (finite a : Exact K) (finite b) (intervalNominal (finite a) (finite b)) := by
  unfold intervalNominal
  rw [half_eq, percent_eq, zero_eq]
  simp only [finite_add, finite_mul, abs_finite, finite_lt_finite]
  split
  · next hnear =>
    obtain ⟨hopposite, hmiddle⟩ := hnear
    have hb : 0 < b := by linarith [abs_nonneg (1 / 2 * (a + b))]
    have ha : a < 0 := (neg_iff_pos_of_mul_neg hopposite).2 hb
    refine ⟨⟨finite_le_finite.2 (by linarith), finite_le_finite.2 (by linarith)⟩, fun h0 => ?_⟩
    have hzero := finite_eq_zero.1 h0
    linarith
  · next hfar =>
    refine ⟨⟨finite_le_finite.2 (by linarith), finite_le_finite.2 (by linarith)⟩, fun h0 => ?_⟩
    have hab : a = -b := by linarith [finite_eq_zero.1 h0]
    -- An interval symmetric about zero is nearly so, unless it has a single point.
    have hb : ¬ 0 < b := fun hb => hfar ⟨by rw [hab]; nlinarith, by rw [hab]; simpa using hb⟩
    have hb0 : b = 0 := by linarith
    exact ⟨finite_eq_zero.2 (by rw [hab, hb0, neg_zero]), finite_eq_zero.2 hb0⟩

/-- The roundoff moves a number by a part of it. -/
theorem roundoff_part : ∃ δ : K, (roundoff : Exact K) = finite δ ∧ 0 < δ ∧ δ < 1 :=
  ⟨1 / 2 ^ 52, roundoff_eq, by positivity, by norm_num⟩

/-- The point that is taken just above a lower bound without an upper one. -/
theorem nominalAbove_substitutes (a : K) :
    Substitutes (finite a : Exact K) posInfinity (nominalAbove (finite a)) := by
  obtain ⟨δ, hδ, hpos, hless⟩ := roundoff_part (K := K)
  have above : ∀ {c : K}, a ≤ c → c ≠ 0 → Substitutes (finite a : Exact K) posInfinity (finite c) :=
    fun hac hc => ⟨⟨finite_le_finite.2 hac, trivial⟩, fun h0 => absurd (finite_eq_zero.1 h0) hc⟩
  unfold nominalAbove
  simp only [finite_beq_zero, one_eq, hδ, gt_iff_lt]
  simp only [zero_eq, finite_add, finite_sub, finite_mul, finite_lt_finite]
  split
  · next h0 => exact above (h0 ▸ zero_le_one) one_ne_zero
  · next h0 =>
    split
    · next ha => exact above (by nlinarith) (mul_pos ha (by linarith)).ne'
    · next ha =>
      exact above (by nlinarith [lt_of_le_of_ne (not_lt.1 ha) h0]) (mul_ne_zero h0 (by linarith))

/-- The point that is taken just below an upper bound without a lower one. -/
theorem nominalBelow_substitutes (b : K) :
    Substitutes (negInfinity : Exact K) (finite b) (nominalBelow (finite b)) := by
  obtain ⟨δ, hδ, hpos, hless⟩ := roundoff_part (K := K)
  have below : ∀ {c : K}, c ≤ b → c ≠ 0 → Substitutes (negInfinity : Exact K) (finite b) (finite c) :=
    fun hcb hc => ⟨⟨trivial, finite_le_finite.2 hcb⟩, fun h0 => absurd (finite_eq_zero.1 h0) hc⟩
  unfold nominalBelow
  simp only [finite_beq_zero, one_eq, hδ, gt_iff_lt]
  simp only [zero_eq, finite_add, finite_sub, finite_mul, finite_neg, finite_lt_finite]
  split
  · next h0 => exact below (h0 ▸ neg_nonpos.2 zero_le_one) (neg_ne_zero.2 one_ne_zero)
  · next h0 =>
    split
    · next hb => exact below (by nlinarith) (mul_ne_zero h0 (by linarith))
    · next hb =>
      exact below (by nlinarith [lt_of_le_of_ne (not_lt.1 hb) h0]) (mul_ne_zero h0 (by linarith))

/-! ## All nominal values -/

/-- What takes the place of a nominal value that cannot be used. -/
theorem repairNominal_substitutes (hordered : lower ≤ upper) (hlower : lower < posInfinity)
    (hupper : negInfinity < upper) (h : nominalUsable nominal lower upper = false) :
    Substitutes lower upper (repairNominal nominal lower upper initial) := by
  unfold repairNominal
  rw [if_neg (by rw [h]; exact Bool.false_ne_true)]
  split
  · next hinitial =>
    obtain ⟨hlow, hhigh, hne⟩ := hinitial
    refine ⟨⟨hlow.1, hhigh.1⟩, fun h0 => ?_⟩
    have hzero : ((0 : Exact K) == 0) = true := exact_beq_iff.2 ⟨rfl, zero_eq (K := K) ▸ nofun⟩
    rw [h0, hzero] at hne
    cases hne
  cases lower with
  | nan => exact absurd rfl (ne_nan_of_le hordered).1
  | posInfinity => exact absurd hlower.1 hlower.2
  | finite a =>
    rw [if_pos (isFinite_finite a)]
    cases upper with
    | nan => exact absurd rfl (ne_nan_of_le hordered).2
    | negInfinity => exact absurd hupper.1 hupper.2
    | finite b =>
      rw [if_pos (isFinite_finite b)]
      exact intervalNominal_substitutes (finite_le_finite.1 hordered)
    | posInfinity => exact nominalAbove_substitutes a
  | negInfinity =>
    cases upper with
    | nan => exact absurd rfl (ne_nan_of_le hordered).2
    | negInfinity => exact absurd hupper.1 hupper.2
    | finite b => exact nominalBelow_substitutes b
    | posInfinity =>
      refine ⟨⟨trivial, trivial⟩, fun h0 => ?_⟩
      exact absurd (finite_eq_zero.1 (one_eq (K := K) ▸ h0)) one_ne_zero

/-- Between bounds in order, neither of them at the wrong infinity, the nominal value that is used is
finite and inside. It is the given one, if that was given, is finite and inside; else it is not zero,
unless both bounds are. And repaired again, whatever the initial guess, it stays as it is, unless it
happens to be the number that marks a missing value. -/
theorem repairNominal_admissible (hordered : lower ≤ upper) (hlower : lower < posInfinity)
    (hupper : negInfinity < upper) (nominal initial : Exact K) :
    isFinite (repairNominal nominal lower upper initial) = true ∧
    Within lower upper (repairNominal nominal lower upper initial) ∧
    (nominal ≠ greatest ∧ isFinite nominal = true ∧ Within lower upper nominal →
      repairNominal nominal lower upper initial = nominal) ∧
    (¬ (nominal ≠ greatest ∧ isFinite nominal = true ∧ Within lower upper nominal) →
      repairNominal nominal lower upper initial = 0 → lower = 0 ∧ upper = 0) ∧
    (repairNominal nominal lower upper initial ≠ greatest → ∀ guess : Exact K,
      repairNominal (repairNominal nominal lower upper initial) lower upper guess =
        repairNominal nominal lower upper initial) := by
  have kept : ∀ {x guess : Exact K}, nominalUsable x lower upper = true →
      repairNominal x lower upper guess = x := fun h => if_pos h
  have substituted : nominalUsable nominal lower upper = false →
      Substitutes lower upper (repairNominal nominal lower upper initial) :=
    repairNominal_substitutes hordered hlower hupper
  have hfinite := repairNominal_finite nominal lower upper initial
  have hwithin : Within lower upper (repairNominal nominal lower upper initial) := by
    cases husable : nominalUsable nominal lower upper with
    | true =>
      rw [kept husable]
      exact (nominalUsable_iff.1 husable).2.2
    | false => exact (substituted husable).within
  refine ⟨hfinite, hwithin, fun hgood => kept (nominalUsable_iff.2 hgood), fun hbad => ?_,
    fun hmark _ => kept (nominalUsable_iff.2 ⟨hmark, hfinite, hwithin⟩)⟩
  have husable : nominalUsable nominal lower upper = false :=
    Bool.eq_false_iff.2 fun h => hbad (nominalUsable_iff.1 h)
  exact (substituted husable).nonzero

end

/-- A missing nominal value between bounds symmetric about zero, whose middle will not do, and one
that is not a number above a lower bound that the initial guess does not reach. -/
theorem repairNominal_admissible_missing :
    (repairNominal greatest (-10) 10 0 = (finite (1 / 10) : Exact ℚ) ∧
      Within (-10 : Exact ℚ) 10 (repairNominal greatest (-10) 10 0) ∧
      repairNominal (repairNominal greatest (-10) 10 0) (-10) 10 4 =
        (repairNominal greatest (-10) 10 0 : Exact ℚ)) ∧
    Within (5 : Exact ℚ) infinity (repairNominal nan 5 infinity 3) ∧
      (repairNominal nan 5 infinity 3 : Exact ℚ) ≠ 0 ∧
      repairNominal (repairNominal nan 5 infinity 3) 5 infinity 7 =
        (repairNominal nan 5 infinity 3 : Exact ℚ) := by
  obtain ⟨_, hbetween, _, _, hagain⟩ := @repairNominal_admissible ℚ _ _ _ _
    (-10) 10 (by decide +kernel) (by decide +kernel) (by decide +kernel) greatest 0
  obtain ⟨_, habove, _, hnonzero, hkept⟩ := @repairNominal_admissible ℚ _ _ _ _
    5 infinity (by decide +kernel) (by decide +kernel) (by decide +kernel) nan 3
  refine ⟨⟨by decide +kernel, hbetween, hagain (by decide +kernel) 4⟩, habove, fun h0 => ?_,
    hkept (by decide +kernel) 7⟩
  have hfive := (hnonzero (fun h => (by cases h.2.1)) h0).1
  revert hfive
  decide +kernel

end AlgebraicLoop
