import AlgebraicLoop.Proofs.Binary64Laws
import AlgebraicLoop.Proofs.Exact
import Mathlib.Data.Rat.Lemmas
import Mathlib.Tactic.FieldSimp
import Mathlib.Tactic.NormNum

/-!
# Products and quotients that are rounded

A line search compares the part of a step that it takes with a quotient, and the length of what it
takes is a product. Rounding keeps the order of the two: what is below a rounded quotient does not
come above the numerator when it is multiplied with the denominator.

* `place_round_le`: a rounded number does not pass a binary64 number that the exact one does not pass;
* `RoundedScalar`: the laws about products and quotients, of binary64 and of exact numbers.
-/

namespace AlgebraicLoop
set_option autoImplicit false

open Float.Model Float.Model.UnpackedFloat

namespace Binary64

/-! ## Rounding and the order -/

/-- The last place that is kept of a number no greater than a binary64 number. -/
theorem last_place_le {m k : Nat} {e t g : Int} (ht : t = max (m.log2 + e - 52) (-1074))
    (he : e ≤ t) (hk : Canonical k g) (hle : (m : ℚ) * 2 ^ e ≤ k * 2 ^ g) : t ≤ g := by
  obtain ⟨hk53, hg, _, _⟩ := hk
  by_cases hleast : t = -1074
  · omega
  · have hm : m ≠ 0 := by
      rintro rfl
      have : Nat.log2 0 = 0 := by decide
      omega
    have hlow : (2 : ℚ) ^ ((m.log2 : Int) + e) ≤ m * 2 ^ e := by
      rw [zpow_add₀ two_ne_zero, zpow_natCast]
      exact mul_le_mul_of_nonneg_right (mod_cast Nat.log2_self_le hm) (zpow_pos two_pos e).le
    have hhigh : (k : ℚ) * 2 ^ g < 2 ^ ((53 : Nat) + g) := by
      rw [zpow_add₀ two_ne_zero, zpow_natCast]
      exact mul_lt_mul_of_pos_right (mod_cast hk53) (zpow_pos two_pos g)
    have hexp := (zpow_lt_zpow_iff_right₀ one_lt_two).1 (hlow.trans_lt (hle.trans_lt hhigh))
    omega

/-- A rounded number does not pass a binary64 number that the exact one does not pass. -/
theorem place_round_le {m k : Nat} {e g : Int} {accuracy : Accuracy}
    (he : e ≤ max (m.log2 + e - 52) (-1074)) (hk : Canonical k g)
    (hle : (m : ℚ) * 2 ^ e ≤ k * 2 ^ g)
    (hlt : accuracy ≠ .exact → (m : ℚ) * 2 ^ e < k * 2 ^ g) :
    placeOf (Float.Model.pack (roundWithAccuracy .binary64 .positive m e accuracy)).unpack ≤
      k + (g + 1074) * 2 ^ 52 := by
  obtain ⟨r, _, _, hr, hbound, hplace⟩ := place_round .positive accuracy rfl he
  generalize ht : max (m.log2 + e - 52) (-1074) = t at *
  have htg := last_place_le ht.symm he hk hle
  obtain ⟨_, hg, _, hnormal⟩ := hk
  rw [hplace]
  refine Int.le_trans (Int.min_le_left _ _) ?_
  by_cases hsame : t = g
  · -- In the last place of the other number both are whole numbers.
    have hshift : (2 : ℚ) ^ g = 2 ^ (t - e).toNat * 2 ^ e := by
      rw [← zpow_natCast, ← zpow_add₀ two_ne_zero]
      congr 1
      omega
    rw [hshift, ← mul_assoc] at hle hlt
    have hwhole : m ≤ k * 2 ^ (t - e).toNat := by
      have := le_of_mul_le_mul_right hle (zpow_pos two_pos e)
      exact_mod_cast this
    have hrk := hbound k hwhole fun h => by
      have := lt_of_mul_lt_mul_right (hlt h) (zpow_pos two_pos e).le
      exact_mod_cast this
    omega
  · omega

/-! ## Products and quotients of positive numbers -/

/-- A quotient of positive numbers is computed to enough bits before it is rounded. -/
theorem div_eq {l k : Nat} {h g : Int} (hl : 0 < l) (hk : 0 < k) (hcl : Canonical l h) :
    ∃ (f : Int) (s : Nat),
      (∀ {z y : Float}, z.toModel.unpack = .finite .positive l h hl →
        y.toModel.unpack = .finite .positive k g hk →
        (z / y).toModel.unpack = (Float.Model.pack (roundWithAccuracy .binary64 .positive
          (l * 2 ^ s / k) f (accuracyOfFraction (l * 2 ^ s % k) k))).unpack) ∧
      h - g = s + f ∧ f ≤ max ((l * 2 ^ s / k).log2 + f - 52) (-1074) := by
  have htarget : Format.binary64.targetExponent (totalExponent l h - totalExponent k g) =
      max ((l.log2 : Int) + h - k.log2 - g - 53) (-1074) := by
    rw [targetExponent_of]
    unfold totalExponent
    omega
  refine ⟨min (h - g) (max ((l.log2 : Int) + h - k.log2 - g - 53) (-1074)),
    (h - g - min (h - g) (max ((l.log2 : Int) + h - k.log2 - g - 53) (-1074))).toNat, ?_, ?_, ?_⟩
  · intro z y hz hy
    change (Float.Model.pack (UnpackedFloat.div .binary64 z.toModel.unpack
      y.toModel.unpack)).unpack = _
    rw [hz, hy, ← htarget, ← Nat.shiftLeft_eq]
    rfl
  · omega
  · generalize hf : min (h - g) (max ((l.log2 : Int) + h - k.log2 - g - 53) (-1074)) = f
    by_cases hleast : f ≤ -1074
    · omega
    · -- The quotient is normal, and the numerator was shifted far enough to give all its bits.
      have hlog := (Nat.log2_lt (Nat.ne_of_gt hl)).2 hcl.mantissa
      have hshift : l.log2 + (h - g - f).toNat = k.log2 + 53 := by omega
      have hlow : 2 ^ 52 * k ≤ l * 2 ^ (h - g - f).toNat := calc
        2 ^ 52 * k ≤ 2 ^ 52 * 2 ^ (k.log2 + 1) :=
          Nat.mul_le_mul_left _ (Nat.le_of_lt Nat.lt_log2_self)
        _ = 2 ^ l.log2 * 2 ^ (h - g - f).toNat := by
          rw [← Nat.pow_add, ← Nat.pow_add, hshift]
          congr 1
          omega
        _ ≤ l * 2 ^ (h - g - f).toNat :=
          Nat.mul_le_mul_right _ (Nat.log2_self_le (Nat.ne_of_gt hl))
      have hbits : 2 ^ 52 ≤ l * 2 ^ (h - g - f).toNat / k := (Nat.le_div_iff_mul_le hk).2 hlow
      have := (Nat.le_log2 (by omega)).2 hbits
      omega

section
variable {x y z : Float} {m k l : Nat} {e g h : Int} {hm : 0 < m} {hk : 0 < k} {hl : 0 < l}
  (hx : x.toModel.unpack = .finite .positive m e hm)
  (hy : y.toModel.unpack = .finite .positive k g hk)
  (hz : z.toModel.unpack = .finite .positive l h hl)
include hx hy hz

theorem place_mul_le (hle : (m : ℚ) * 2 ^ e * (k * 2 ^ g) ≤ l * 2 ^ h) :
    place (x * y) ≤ place z := by
  have hcx := canonical_unpack hx
  have hcy := canonical_unpack hy
  have hexact : ((m * k : Nat) : ℚ) * 2 ^ (e + g) = m * 2 ^ e * (k * 2 ^ g) := by
    rw [zpow_add₀ two_ne_zero]
    push_cast
    ring
  have he : e + g ≤ max ((m * k).log2 + (e + g) - 52) (-1074) := by
    have hlog : ∀ j, j ≤ m * k → j ≠ 0 → j.log2 ≤ (m * k).log2 := by
      intro j hj hj0
      exact (Nat.le_log2 (by positivity)).2 ((Nat.log2_self_le hj0).trans hj)
    obtain ⟨_, _, _, hnx⟩ := hcx
    obtain ⟨_, _, _, hny⟩ := hcy
    have htwo : Nat.log2 (2 ^ 52) = 52 := Nat.log2_two_pow
    obtain hnx | hnx := hnx
    · have := hlog (2 ^ 52) (by nlinarith) (by norm_num)
      omega
    · obtain hny | hny := hny
      · have := hlog (2 ^ 52) (by nlinarith) (by norm_num)
        omega
      · omega
  rw [place_finite hz]
  unfold place
  rw [unpack_mul, hx, hy]
  refine place_round_le he (canonical_unpack hz) ?_ fun h => absurd rfl h
  rw [hexact]
  exact hle

theorem place_div_le (hle : (l : ℚ) * 2 ^ h ≤ m * 2 ^ e * (k * 2 ^ g)) :
    place (z / y) ≤ place x := by
  obtain ⟨f, s, hdiv, hsum, he⟩ := div_eq (g := g) hl hk (canonical_unpack hz)
  have hshift : (l : ℚ) * 2 ^ h = (l * 2 ^ s : Nat) * 2 ^ f * 2 ^ g := by
    rw [show h = (s : Int) + f + g by omega, zpow_add₀ two_ne_zero, zpow_add₀ two_ne_zero, zpow_natCast]
    push_cast
    ring
  have hexact : ((l * 2 ^ s : Nat) : ℚ) * 2 ^ f ≤ m * 2 ^ e * k := by
    rw [hshift, ← mul_assoc] at hle
    exact le_of_mul_le_mul_right hle (zpow_pos two_pos g)
  have hk0 : (0 : ℚ) < k := mod_cast hk
  have hquotient : (l * 2 ^ s / k : Nat) * (k : ℚ) ≤ (l * 2 ^ s : Nat) :=
    mod_cast Nat.div_mul_le_self (l * 2 ^ s) k
  rw [place_finite hx]
  unfold place
  rw [hdiv hz hy]
  refine place_round_le he (canonical_unpack hx) ?_ fun hinexact => ?_
  · refine le_of_mul_le_mul_right (le_trans ?_ hexact) hk0
    rw [mul_right_comm]
    exact mul_le_mul_of_nonneg_right hquotient (zpow_pos two_pos f).le
  · have hrest : (l * 2 ^ s / k : Nat) * (k : ℚ) < (l * 2 ^ s : Nat) := by
      have hne : l * 2 ^ s % k ≠ 0 := fun h => hinexact (if_pos h)
      have := Nat.div_add_mod (l * 2 ^ s) k
      have : l * 2 ^ s / k * k < l * 2 ^ s := by
        rw [Nat.mul_comm]
        omega
      exact_mod_cast this
    refine lt_of_mul_lt_mul_right (lt_of_lt_of_le ?_ hexact) hk0.le
    rw [mul_right_comm]
    exact mul_lt_mul_of_pos_right hrest (zpow_pos two_pos f)

end

/-! ## All numbers -/

theorem place_zero : place 0 = 0 := by rfl

/-- A number that is not negative is zero, infinite, or finite and positive. -/
theorem nonneg_cases {x : Float} (hx : Real x) (h : 0 ≤ place x) :
    (∃ sign, x.toModel.unpack = .zero sign) ∨ x.toModel.unpack = .infinity .positive ∨
      ∃ m e hm, x.toModel.unpack = .finite .positive m e hm := by
  unfold place at h
  cases hu : x.toModel.unpack with
  | notANumber => exact absurd hu hx
  | zero sign => exact .inl ⟨sign, rfl⟩
  | infinity sign =>
    rw [hu] at h
    cases sign with
    | positive => exact .inr (.inl rfl)
    | negative => exact absurd h (by decide)
  | finite sign m e hm =>
    have hbounds := place_bounds hm (canonical_unpack hu)
    rw [hu, placeOf_finite] at h
    cases sign with
    | positive => exact .inr (.inr ⟨m, e, hm, rfl⟩)
    | negative =>
      simp only [Sign.apply] at h
      omega

theorem place_infinity {x : Float} (hx : x.toModel.unpack = .infinity .positive) :
    place x = 2047 * 2 ^ 52 := by
  unfold place
  rw [hx]
  rfl

/-- No number is above infinity. -/
theorem place_le_top {x : Float} : place x ≤ 2047 * 2 ^ 52 := by
  unfold place
  cases hu : x.toModel.unpack with
  | notANumber | zero sign => exact (by decide : (0 : Int) ≤ 2047 * 2 ^ 52)
  | infinity sign => cases sign <;> decide
  | finite sign m e hm =>
    have hbounds := place_bounds hm (canonical_unpack hu)
    rw [placeOf_finite]
    cases sign <;> simp only [Sign.apply] <;> omega

theorem place_zero_of_unpack (x : Float) (sign : Sign)
    (hx : x.toModel.unpack = (Float.Model.pack (.zero sign)).unpack) : Real x ∧ place x = 0 := by
  unfold Real place
  rw [hx]
  cases sign <;> exact ⟨nofun, rfl⟩

/-- The product of zero and a number that is not infinite. -/
theorem mul_zero_place {x y : Float} {s : Sign} (hx : x.toModel.unpack = .zero s)
    (hy : (∃ t, y.toModel.unpack = .zero t) ∨ ∃ m e hm, y.toModel.unpack = .finite .positive m e hm) :
    (Real (x * y) ∧ place (x * y) = 0) ∧ Real (y * x) ∧ place (y * x) = 0 := by
  rw [mul_comm y x]
  suffices h : Real (x * y) ∧ place (x * y) = 0 from ⟨h, h⟩
  obtain ⟨t, hy⟩ | ⟨m, e, hm, hy⟩ := hy
  · exact place_zero_of_unpack _ (s * t) (by rw [unpack_mul, hx, hy]; rfl)
  · exact place_zero_of_unpack _ (s * .positive) (by rw [unpack_mul, hx, hy]; rfl)

theorem unpack_div (x y : Float) :
    (x / y).toModel.unpack =
      (Float.Model.pack (UnpackedFloat.div .binary64 x.toModel.unpack y.toModel.unpack)).unpack :=
  rfl

/-- A quotient that a number is below is not one by infinity. -/
theorem not_infinity_of_lt {d t l : Float} (hd : 0 ≤ place d) (ht : Real t) (ht0 : 0 ≤ place t)
    (hl : l.toModel.unpack = .infinity .positive) (h : Real (t / l)) : ¬ place d < place (t / l) := by
  obtain ⟨s, hu⟩ | hu | ⟨m, e, hm, hu⟩ := nonneg_cases ht ht0
  · have := (place_zero_of_unpack (t / l) (s / .positive)
      (by rw [unpack_div, hu, hl]; rfl)).2
    omega
  · refine absurd ?_ h
    rw [unpack_div, hu, hl]
    rfl
  · have := (place_zero_of_unpack (t / l) (.positive / .positive)
      (by rw [unpack_div, hu, hl]; rfl)).2
    omega

theorem mul_le_of_lt_div {d l t : Float} (hd : 0 ≤ d) (hl : 0 ≤ l) (ht : 0 ≤ t) (h : d < t / l) :
    d * l ≤ t := by
  rw [le_iff, place_zero] at hd hl ht
  rw [lt_iff] at h
  obtain ⟨hzero, hd, hd0⟩ := hd
  obtain ⟨_, hl, hl0⟩ := hl
  obtain ⟨_, ht, ht0⟩ := ht
  obtain ⟨_, hquotient, hlt⟩ := h
  rw [le_iff]
  have hlinfinite : l.toModel.unpack ≠ .infinity .positive := fun hu =>
    not_infinity_of_lt hd0 ht ht0 hu hquotient hlt
  have hdinfinite : d.toModel.unpack ≠ .infinity .positive := fun hu => by
    have := place_infinity hu
    have := place_le_top (x := t / l)
    omega
  have hd' := (nonneg_cases hd hd0).imp_right fun h => h.resolve_left hdinfinite
  have hl' := (nonneg_cases hl hl0).imp_right fun h => h.resolve_left hlinfinite
  have vanishes : Real (d * l) ∧ place (d * l) = 0 →
      Real (d * l) ∧ Real t ∧ place (d * l) ≤ place t := fun ⟨hreal, hplace⟩ =>
    ⟨hreal, ht, hplace ▸ ht0⟩
  obtain ⟨s, hu⟩ | ⟨m, e, hm, hu⟩ := hd'
  · exact vanishes (mul_zero_place hu hl').1
  · obtain ⟨s, hv⟩ | ⟨k, g, hk, hv⟩ := hl'
    · exact vanishes (mul_zero_place hv (.inr ⟨m, e, hm, hu⟩)).2
    · have hreal : Real (d * l) := by
        unfold Real
        rw [unpack_mul, hu, hv]
        exact real_pack (round_ne_nan _ _ _ _)
      refine ⟨hreal, ht, ?_⟩
      obtain ⟨s, hw⟩ | hw | ⟨n, f, hn, hw⟩ := nonneg_cases ht ht0
      · have := (place_zero_of_unpack (t / l) (s / .positive)
          (by rw [unpack_div, hw, hv]; rfl)).2
        omega
      · rw [place_infinity hw]
        exact place_le_top
      · obtain hle | hle := le_total ((m : ℚ) * 2 ^ e * (k * 2 ^ g)) (n * 2 ^ f)
        · exact place_mul_le hu hv hw hle
        · -- The part would not be below the quotient if the product passed the numerator.
          have := place_div_le hu hv hw hle
          omega

theorem unpack_one : (1 : Float).toModel.unpack =
    .finite .positive (2 ^ 52) (-52) (by decide) := by
  rfl

theorem le_of_beq {x y : Float} (h : (x == y) = true) : x ≤ y := by
  change x.toModel.unpack.beq y.toModel.unpack = true at h
  unfold UnpackedFloat.beq at h
  rw [le_iff]
  by_cases hx : Real x
  · by_cases hy : Real y
    · rw [compare_toModel hx hy] at h
      refine ⟨hx, hy, Int.le_of_eq (Int.compare_eq_eq.1 ?_)⟩
      simpa using h
    · rw [compare_eq_none (.inr (Classical.not_not.1 hy))] at h
      cases h
  · rw [compare_eq_none (.inl (Classical.not_not.1 hx))] at h
    cases h

theorem one_mul_zero {l : Float} (h : (l == 0) = true) : 1 * l ≤ 0 := by
  have hle := le_of_beq h
  rw [le_iff] at hle ⊢
  obtain ⟨hreal, _, hsign⟩ := mul_sign unpack_one (by decide) hle.1
  exact ⟨hreal, hle.2.1, hsign hle.2.2⟩

theorem hundredth_le {t : Float} (h : 0 ≤ t) : 0.01 * t ≤ t := by
  rw [le_iff] at h ⊢
  obtain ⟨_, ht, ht0⟩ := h
  refine ⟨(mul_sign unpack_hundredth (by decide) ht).1, ht, ?_⟩
  obtain ⟨s, hu⟩ | hu | ⟨m, e, hm, hu⟩ := nonneg_cases ht ht0
  · exact Int.le_of_eq (place_mul_zero unpack_hundredth hu)
  · exact Int.le_of_eq (place_mul_infinity unpack_hundredth hu)
  · exact percent_place hu

end Binary64

/-! ## The laws -/

/-- What the verdict on an attempt asks of products and quotients. -/
class RoundedScalar (α : Type) [Scalar α] : Prop extends LawfulScalar α where
  hundredth_le : ∀ t : α, 0 ≤ t → 0.01 * t ≤ t
  one_mul_zero : ∀ l : α, (l == 0) = true → 1 * l ≤ 0
  /-- What is below a quotient does not come above the numerator with the denominator. -/
  mul_le_of_lt_div : ∀ d l t : α, 0 ≤ d → 0 ≤ l → 0 ≤ t → d < t / l → d * l ≤ t

instance : RoundedScalar Float where
  hundredth_le _ := Binary64.hundredth_le
  one_mul_zero _ := Binary64.one_mul_zero
  mul_le_of_lt_div _ _ _ := Binary64.mul_le_of_lt_div

section
open Exact
variable {K : Type} [Field K] [LinearOrder K] [IsStrictOrderedRing K] [SquareRoot K]

theorem exact_hundredth_le {t : Exact K} (h : 0 ≤ t) : 0.01 * t ≤ t := by
  rw [percent_eq]
  rw [zero_eq] at h
  cases t with
  | nan => exact absurd rfl (ne_nan_of_le h).2
  | negInfinity => exact h.elim
  | posInfinity =>
    rw [finite_mul_posInfinity (by norm_num)]
    exact trivial
  | finite t =>
    have ht : 0 ≤ t := h
    exact show 1 / 100 * t ≤ t by linarith

omit [IsStrictOrderedRing K] in
theorem exact_one_mul_zero {l : Exact K} (h : (l == 0) = true) : 1 * l ≤ 0 := by
  obtain ⟨hle, hge⟩ := beq_iff.1 h
  rw [zero_eq] at *
  cases l with
  | finite a =>
    rw [one_eq, finite_mul, one_mul]
    exact hle
  | nan => exact absurd rfl (ne_nan_of_le hle).1
  | posInfinity => exact hle.elim
  | negInfinity => exact hge.elim

theorem exact_mul_le_of_lt_div {d l t : Exact K} (hd : 0 ≤ d) (hl : 0 ≤ l) (ht : 0 ≤ t)
    (h : d < t / l) : d * l ≤ t := by
  rw [zero_eq] at hd hl ht
  -- Neither factor is infinite, for nothing is above an infinite part, and no part of a quotient by
  -- infinity is positive.
  cases d with
  | nan => exact absurd rfl (ne_nan_of_le hd).2
  | negInfinity => exact hd.elim
  | posInfinity =>
    generalize t / l = q at h
    cases q <;> first | exact h.1.elim | exact absurd h.1 h.2
  | finite a =>
    have ha : 0 ≤ a := hd
    cases l with
    | nan => exact absurd rfl (ne_nan_of_le hl).2
    | negInfinity => exact hl.elim
    | posInfinity =>
      cases t with
      | finite c => exact absurd (finite_lt_finite.1 h) (not_lt_of_ge ha)
      | _ => exact h.1.elim
    | finite b =>
      have hb : 0 ≤ b := hl
      cases t with
      | nan => exact absurd rfl (ne_nan_of_le ht).2
      | negInfinity => exact ht.elim
      | posInfinity => exact trivial
      | finite c =>
        have hc : 0 ≤ c := ht
        rw [finite_mul, finite_le_finite]
        obtain rfl | hpos := hb.eq_or_lt
        · rwa [mul_zero]
        · rw [finite_div _ hpos.ne', finite_lt_finite, lt_div_iff₀ hpos] at h
          exact h.le

instance : RoundedScalar (Exact K) where
  hundredth_le _ := exact_hundredth_le
  one_mul_zero _ := exact_one_mul_zero
  mul_le_of_lt_div _ _ _ := exact_mul_le_of_lt_div

end

end AlgebraicLoop
