import AlgebraicLoop.Proofs.Laws
import AlgebraicLoop.Scalar.Binary64
import Mathlib.Algebra.Group.Int.Defs
import Mathlib.Algebra.Group.Nat.Defs

/-!
# The laws of binary64 numbers

A binary64 number that is not NaN has a place in the order: its bits read as an integer, with its
sign. Rounding a product puts it at the place that its leading 53 bits give, or at the next one, and
never below the least exponent. The laws of `LawfulScalar` follow from where a product is placed.

* `place`, `le_iff`, `lt_iff`: the order by places;
* `place_round`: where a rounded number is placed.
-/

namespace AlgebraicLoop
set_option autoImplicit false

open Float.Model Float.Model.UnpackedFloat

namespace Binary64

/-! ## Places -/

/-- The place of an unpacked number in the order; zero for a NaN. -/
def placeOf : UnpackedFloat → Int
  | .notANumber | .zero _ => 0
  | .infinity sign => sign.apply (2047 * 2 ^ 52)
  | .finite sign m e _ => sign.apply (m + (e + 1074) * 2 ^ 52)

theorem placeOf_finite (sign : Sign) (m : Nat) (e : Int) (h : 0 < m) :
    placeOf (.finite sign m e h) = sign.apply (m + (e + 1074) * 2 ^ 52) := rfl

/-- The place of a number in the order. -/
def place (x : Float) : Int := placeOf x.toModel.unpack

/-- The mantissa and the exponent that a finite number is kept with. -/
structure Canonical (m : Nat) (e : Int) : Prop where
  mantissa : m < 2 ^ 53
  least : -1074 ≤ e
  greatest : e ≤ 971
  normal : 2 ^ 52 ≤ m ∨ e = -1074

theorem toNat_one_append (mantissa : BitVec 52) :
    (1#1 ++ mantissa).toNat = 2 ^ 52 + mantissa.toNat := by
  rw [BitVec.toNat_append, ← Nat.shiftLeft_add_eq_or_of_lt mantissa.isLt]
  rfl

theorem canonical_unpack {x : Float.Model} {sign : Sign} {m : Nat} {e : Int} {h : 0 < m}
    (hx : x.unpack = .finite sign m e h) : Canonical m e := by
  unfold Float.Model.unpack UnpackedFloat.unpack at hx
  dsimp only at hx
  have hbias : (Format.binary64.exponentBias : Int) = 1023 := by decide
  have hm : (@unpackMantissa .binary64 x.toBits.toBitVec).toNat < 2 ^ 52 :=
    (@unpackMantissa .binary64 x.toBits.toBitVec).isLt
  have he : (@unpackExponent .binary64 x.toBits.toBitVec).toNat < 2 ^ 11 :=
    (@unpackExponent .binary64 x.toBits.toBitVec).isLt
  by_cases hinfinite : @unpackExponent .binary64 x.toBits.toBitVec = -1#_
  · rw [if_pos hinfinite] at hx
    by_cases hzero : @unpackMantissa .binary64 x.toBits.toBitVec = 0#_
    · rw [if_pos hzero] at hx
      cases hx
    · rw [if_neg hzero] at hx
      cases hx
  · rw [if_neg hinfinite] at hx
    have htop : (@unpackExponent .binary64 x.toBits.toBitVec).toNat ≠ 2047 := fun h =>
      hinfinite (BitVec.eq_of_toNat_eq h)
    by_cases hsmall : @unpackExponent .binary64 x.toBits.toBitVec = 0#_
    · rw [if_pos hsmall] at hx
      by_cases hzero : @unpackMantissa .binary64 x.toBits.toBitVec = 0#_
      · rw [dif_pos hzero] at hx
        cases hx
      · rw [dif_neg hzero] at hx
        cases hx
        rw [hsmall, hbias]
        exact ⟨by omega, by decide, by decide, .inr (by decide)⟩
    · rw [if_neg hsmall] at hx
      have hpos : (@unpackExponent .binary64 x.toBits.toBitVec).toNat ≠ 0 := fun h =>
        hsmall (BitVec.eq_of_toNat_eq h)
      cases hx
      have hone := toNat_one_append (@unpackMantissa .binary64 x.toBits.toBitVec)
      rw [hone, hbias]
      exact ⟨by omega, by omega, by omega, .inl (by omega)⟩

theorem compare_neg (a b : Int) : compare (-a) (-b) = compare b a := by
  obtain h | rfl | h : a < b ∨ a = b ∨ b < a := by omega
  · rw [Int.compare_eq_gt.2 h, Int.compare_eq_gt.2 (by omega)]
  · rw [Int.compare_eq_eq.2 rfl, Int.compare_eq_eq.2 rfl]
  · rw [Int.compare_eq_lt.2 h, Int.compare_eq_lt.2 (by omega)]

theorem compare_canonical {m k : Nat} {e g : Int} (h : Canonical m e) (h' : Canonical k g) :
    (compare e g).then (compare m k) =
      compare ((m : Int) + (e + 1074) * 2 ^ 52) (k + (g + 1074) * 2 ^ 52) := by
  obtain ⟨hm, hle, _, hn⟩ := h
  obtain ⟨hk, hlg, _, hn'⟩ := h'
  obtain heg | rfl | hge : e < g ∨ e = g ∨ g < e := by omega
  · rw [Int.compare_eq_lt.2 heg, Int.compare_eq_lt.2 (by omega)]
    rfl
  · obtain hmk | rfl | hkm : m < k ∨ m = k ∨ k < m := by omega
    · rw [Int.compare_eq_eq.2 rfl, Nat.compare_eq_lt.2 hmk, Int.compare_eq_lt.2 (by omega)]
      rfl
    · rw [Int.compare_eq_eq.2 rfl, Int.compare_eq_eq.2 rfl, Nat.compare_eq_eq.2 rfl]
      rfl
    · rw [Int.compare_eq_eq.2 rfl, Nat.compare_eq_gt.2 hkm, Int.compare_eq_gt.2 (by omega)]
      rfl
  · rw [Int.compare_eq_gt.2 hge, Int.compare_eq_gt.2 (by omega)]
    rfl

/-- A finite number lies between zero and infinity. -/
theorem place_bounds {m : Nat} {e : Int} (hm : 0 < m) (h : Canonical m e) :
    0 < (m : Int) + (e + 1074) * 2 ^ 52 ∧ (m : Int) + (e + 1074) * 2 ^ 52 < 2047 * 2 ^ 52 := by
  obtain ⟨hlt, hle, hge, hn⟩ := h
  omega

/-- Unpacked numbers are compared by their places. -/
theorem compare_unpack (x y : Float.Model) (hx : x.unpack ≠ .notANumber)
    (hy : y.unpack ≠ .notANumber) :
    x.unpack.compare y.unpack = some (compare (placeOf x.unpack) (placeOf y.unpack)) := by
  cases hu : x.unpack with
  | notANumber => exact absurd hu hx
  | infinity s =>
    cases hv : y.unpack with
    | notANumber => exact absurd hv hy
    | infinity t => cases s <;> cases t <;> rfl
    | zero t => cases s <;> rfl
    | finite t k g hk =>
      have hb := place_bounds hk (canonical_unpack hv)
      cases s <;> cases t
      all_goals
        dsimp only [UnpackedFloat.compare, placeOf, Sign.apply]
        refine congrArg some (Eq.symm ?_)
      · exact Int.compare_eq_lt.2 (by omega)
      · exact Int.compare_eq_lt.2 (by omega)
      · exact Int.compare_eq_gt.2 (by omega)
      · exact Int.compare_eq_gt.2 (by omega)
  | zero s =>
    cases hv : y.unpack with
    | notANumber => exact absurd hv hy
    | infinity t => cases t <;> rfl
    | zero t => rfl
    | finite t k g hk =>
      have hb := place_bounds hk (canonical_unpack hv)
      cases t
      all_goals
        dsimp only [UnpackedFloat.compare, placeOf, Sign.apply]
        refine congrArg some (Eq.symm ?_)
      · exact Int.compare_eq_gt.2 (by omega)
      · exact Int.compare_eq_lt.2 (by omega)
  | finite s m e hm =>
    have ha := place_bounds hm (canonical_unpack hu)
    cases hv : y.unpack with
    | notANumber => exact absurd hv hy
    | infinity t =>
      cases s <;> cases t
      all_goals
        dsimp only [UnpackedFloat.compare, placeOf, Sign.apply]
        refine congrArg some (Eq.symm ?_)
      · exact Int.compare_eq_gt.2 (by omega)
      · exact Int.compare_eq_lt.2 (by omega)
      · exact Int.compare_eq_gt.2 (by omega)
      · exact Int.compare_eq_lt.2 (by omega)
    | zero t =>
      cases s
      all_goals
        dsimp only [UnpackedFloat.compare, placeOf, Sign.apply]
        refine congrArg some (Eq.symm ?_)
      · exact Int.compare_eq_lt.2 (by omega)
      · exact Int.compare_eq_gt.2 (by omega)
    | finite t k g hk =>
      have hb := place_bounds hk (canonical_unpack hv)
      have hc := compare_canonical (canonical_unpack hu) (canonical_unpack hv)
      cases s <;> cases t
      all_goals
        dsimp only [UnpackedFloat.compare, placeOf, Sign.apply]
        refine congrArg some ?_
      · rw [hc, Int.compare_swap]
        exact (compare_neg _ _).symm
      · exact (Int.compare_eq_lt.2 (by omega)).symm
      · exact (Int.compare_eq_gt.2 (by omega)).symm
      · exact hc

/-! ## Order -/

/-- Is the number not a NaN? -/
def Real (x : Float) : Prop := x.toModel.unpack ≠ .notANumber

theorem compare_toModel {x y : Float} (hx : Real x) (hy : Real y) :
    x.toModel.unpack.compare y.toModel.unpack = some (compare (place x) (place y)) :=
  compare_unpack _ _ hx hy

theorem compare_eq_none {u v : UnpackedFloat} (h : u = .notANumber ∨ v = .notANumber) :
    u.compare v = none := by
  obtain rfl | rfl := h
  · rfl
  · cases u <;> rfl

theorem le_iff (x y : Float) : x ≤ y ↔ Real x ∧ Real y ∧ place x ≤ place y := by
  have unfolded : x ≤ y ↔ x.toModel.unpack.le y.toModel.unpack = true := by
    change decide (x.toModel.unpack.le y.toModel.unpack = true) = true ↔ _
    rw [decide_eq_true_iff]
  rw [unfolded]
  unfold UnpackedFloat.le
  by_cases hx : Real x
  · by_cases hy : Real y
    · rw [compare_toModel hx hy]
      simp only [Option.any_some, Int.isLE_compare, hx, hy, true_and]
    · rw [compare_eq_none (.inr (Classical.not_not.1 hy))]
      simp [hy]
  · rw [compare_eq_none (.inl (Classical.not_not.1 hx))]
    simp [hx]

theorem lt_iff (x y : Float) : x < y ↔ Real x ∧ Real y ∧ place x < place y := by
  have unfolded : x < y ↔ x.toModel.unpack.lt y.toModel.unpack = true := by
    change decide (x.toModel.unpack.lt y.toModel.unpack = true) = true ↔ _
    rw [decide_eq_true_iff]
  rw [unfolded]
  unfold UnpackedFloat.lt
  by_cases hx : Real x
  · by_cases hy : Real y
    · rw [compare_toModel hx hy]
      simp [hx, hy, Int.compare_eq_lt]
    · rw [compare_eq_none (.inr (Classical.not_not.1 hy))]
      simp [hy]
  · rw [compare_eq_none (.inl (Classical.not_not.1 hx))]
    simp [hx]

theorem isNaN_iff (x : Float) : isNaN x = false ↔ Real x := by
  have unfolded : isNaN x = false ↔ x.toModel.unpack.beq x.toModel.unpack = true := by
    change (!(x.toModel.unpack.beq x.toModel.unpack)) = false ↔ _
    simp
  rw [unfolded]
  unfold UnpackedFloat.beq
  by_cases hx : Real x
  · rw [compare_toModel hx hx, Int.compare_eq_eq.2 rfl]
    simp [hx]
  · rw [compare_eq_none (.inl (Classical.not_not.1 hx))]
    simp [hx]

/-! ## Rounding -/

theorem mantissa_shiftRight (em : ExtendedMantissa) (k : Nat) :
    (em >>> k).mantissa = em.mantissa / 2 ^ k := by
  induction k with
  | zero => exact (Nat.div_one _).symm
  | succ k ih =>
    change (em >>> k).mantissa / 2 = _
    rw [ih, Nat.div_div_eq_div_mul, Nat.pow_succ]

theorem roundedMantissa_bounds (em : ExtendedMantissa) :
    em.mantissa ≤ em.roundedMantissa ∧ em.roundedMantissa ≤ em.mantissa + 1 := by
  obtain ⟨m, r, s⟩ := em
  cases r <;> cases s <;>
    simp only [ExtendedMantissa.roundedMantissa, ExtendedMantissa.accuracy,
      Accuracy.roundToNearestEven] <;> omega

theorem shiftRight_multiple (m k : Nat) :
    (⟨m * 2 ^ k, false, false⟩ : ExtendedMantissa) >>> k = ⟨m, false, false⟩ := by
  induction k generalizing m with
  | zero => exact congrArg (ExtendedMantissa.mk · false false) (Nat.mul_one m)
  | succ k ih =>
    change ((⟨m * 2 ^ (k + 1), false, false⟩ : ExtendedMantissa) >>> k).shiftRightOne = _
    rw [Nat.pow_succ', ← Nat.mul_assoc, ih]
    simp [ExtendedMantissa.shiftRightOne]

theorem mantissa_ofMantissaAndAccuracy (m : Nat) (accuracy : Accuracy) :
    (ExtendedMantissa.ofMantissaAndAccuracy m accuracy).mantissa = m := by
  cases accuracy with
  | exact => rfl
  | inexact o => cases o <;> rfl

/-- Rounding does not pass a whole number that the exact one does not pass. -/
theorem roundedMantissa_le {m k bound : Nat} {accuracy : Accuracy} (hle : m ≤ bound * 2 ^ k)
    (hlt : accuracy ≠ .exact → m < bound * 2 ^ k) :
    (ExtendedMantissa.ofMantissaAndAccuracy m accuracy >>> k).roundedMantissa ≤ bound := by
  have hpow := Nat.two_pow_pos k
  have hhigh := (roundedMantissa_bounds
    (ExtendedMantissa.ofMantissaAndAccuracy m accuracy >>> k)).2
  rw [mantissa_shiftRight, mantissa_ofMantissaAndAccuracy] at hhigh
  by_cases hbelow : m < bound * 2 ^ k
  · have := (Nat.div_lt_iff_lt_mul hpow).2 hbelow
    omega
  · obtain rfl : m = bound * 2 ^ k := by omega
    cases accuracy with
    | inexact o => exact absurd (hlt nofun) hbelow
    | exact =>
      change ((⟨bound * 2 ^ k, false, false⟩ : ExtendedMantissa) >>> k).roundedMantissa ≤ bound
      rw [shiftRight_multiple]
      exact Nat.le_refl bound

theorem targetExponent_of (e : Int) :
    Format.binary64.targetExponent e = max (e - 53) (-1074) := by
  have hbits : (Format.binary64.mantissaBits : Int) = 53 := by decide
  have hmin : Format.binary64.minExponent = -1074 := by decide
  unfold Format.targetExponent
  rw [hbits, hmin]

theorem targetExponent_eq (m : Nat) (e : Int) :
    Format.binary64.targetExponent (totalExponent m e) = max (m.log2 + e - 52) (-1074) := by
  rw [targetExponent_of]
  unfold totalExponent
  omega

/-- The leading bits of a mantissa that are kept. -/
theorem leading_bits {m : Nat} (k : Nat) (h : m.log2 ≤ 52 + k) :
    m / 2 ^ k < 2 ^ 53 ∧ (m.log2 = 52 + k → 2 ^ 52 ≤ m / 2 ^ k) := by
  have hpow : ∀ j, 2 ^ (j + k) = 2 ^ j * 2 ^ k := fun j => Nat.pow_add 2 j k
  constructor
  · rw [Nat.div_lt_iff_lt_mul (Nat.two_pow_pos k), ← hpow]
    exact Nat.lt_of_lt_of_le Nat.lt_log2_self (Nat.pow_le_pow_right (by decide) (by omega))
  · intro hlog
    have hm : m ≠ 0 := by
      rintro rfl
      have : Nat.log2 0 = 0 := by decide
      omega
    rw [Nat.le_div_iff_mul_le (Nat.two_pow_pos k), ← hpow, ← hlog]
    exact Nat.log2_self_le hm

theorem shift_short {m : Nat} {e : Int} (hm : m < 2 ^ 53) (he : -1074 ≤ e) :
    shiftToTargetExponent .binary64 m e .exact = (⟨m, false, false⟩, e) := by
  have hlog : m.log2 ≤ 52 := by
    by_cases h : m = 0
    · rw [h]
      decide
    · have := (Nat.log2_lt h).2 hm
      omega
  have hshift : (Format.binary64.targetExponent (totalExponent m e) - e).toNat = 0 := by
    rw [targetExponent_eq]
    omega
  unfold shiftToTargetExponent shiftToExponent
  dsimp only
  rw [hshift]
  exact Prod.ext rfl (Int.add_zero e)

theorem shift_carry {e : Int} (he : -1074 ≤ e) :
    shiftToTargetExponent .binary64 (2 ^ 53) e .exact = (⟨2 ^ 52, false, false⟩, e + 1) := by
  have hshift : (Format.binary64.targetExponent (totalExponent (2 ^ 53) e) - e).toNat = 1 := by
    rw [targetExponent_eq, Nat.log2_two_pow]
    omega
  unfold shiftToTargetExponent shiftToExponent
  dsimp only
  rw [hshift]
  rfl

/-- Rounding keeps the leading bits, or takes the next number where they are not exact. -/
theorem round_eq (sign : Sign) {m : Nat} {e t : Int} (accuracy : Accuracy)
    (ht : t = max (m.log2 + e - 52) (-1074)) (he : e ≤ t) :
    ∃ r, m / 2 ^ (t - e).toNat ≤ r ∧ r ≤ m / 2 ^ (t - e).toNat + 1 ∧ r ≤ 2 ^ 53 ∧
      (∀ bound, m ≤ bound * 2 ^ (t - e).toNat →
        (accuracy ≠ .exact → m < bound * 2 ^ (t - e).toNat) → r ≤ bound) ∧
      roundWithAccuracy .binary64 sign m e accuracy =
        if h : r = 0 then .zero sign
        else if r < 2 ^ 53 then .finite sign r t (Nat.pos_of_ne_zero h)
        else .finite sign (2 ^ 52) (t + 1) (by decide) := by
  have hfirst : shiftToTargetExponent .binary64 m e accuracy =
      (ExtendedMantissa.ofMantissaAndAccuracy m accuracy >>> (t - e).toNat, t) := by
    unfold shiftToTargetExponent shiftToExponent
    rw [targetExponent_eq, ← ht]
    exact Prod.ext rfl (by dsimp only; omega)
  have hbounds := roundedMantissa_bounds
    (ExtendedMantissa.ofMantissaAndAccuracy m accuracy >>> (t - e).toNat)
  rw [mantissa_shiftRight, mantissa_ofMantissaAndAccuracy] at hbounds
  have hlead := (leading_bits (m := m) (t - e).toNat (by omega)).1
  have hle : ∀ bound, m ≤ bound * 2 ^ (t - e).toNat →
      (accuracy ≠ .exact → m < bound * 2 ^ (t - e).toNat) →
      (ExtendedMantissa.ofMantissaAndAccuracy m accuracy >>> (t - e).toNat).roundedMantissa ≤
        bound := fun _ => roundedMantissa_le
  unfold roundWithAccuracy
  rw [hfirst]
  dsimp only
  generalize (ExtendedMantissa.ofMantissaAndAccuracy m accuracy >>>
    (t - e).toNat).roundedMantissa = r at hbounds hle
  refine ⟨r, hbounds.1, hbounds.2, by omega, hle, ?_⟩
  by_cases hr : r < 2 ^ 53
  · rw [shift_short hr (by omega)]
    by_cases hzero : r = 0
    · rw [dif_pos hzero, dif_pos hzero]
    · rw [dif_neg hzero, dif_neg hzero, if_pos hr]
  · obtain rfl : r = 2 ^ 53 := by omega
    rw [shift_carry (by omega)]
    rfl

/-! ## Packing -/

theorem unpackSign_packComponents (sign : Sign) (exponent : BitVec 11) (mantissa : BitVec 52) :
    unpackSign (packComponents .binary64 sign exponent mantissa) = sign.toBitVec := by
  refine BitVec.eq_of_getLsbD_eq fun i hi => ?_
  have hi0 : i = 0 := by omega
  subst hi0
  delta unpackSign
  simp only [packComponents, BitVec.getLsbD_cast, BitVec.getLsbD_extractLsb]
  rw [BitVec.getLsbD_append, BitVec.getLsbD_append]
  cases sign <;> rfl

theorem ofBitVec_toBitVec (sign : Sign) : Sign.ofBitVec sign.toBitVec = sign := by
  cases sign <;> rfl

theorem unpack_components (sign : Sign) (exponent : BitVec 11) (mantissa : BitVec 52)
    (h : exponent ≠ -1#11) :
    unpack .binary64 (packComponents .binary64 sign exponent mantissa) =
      if exponent = 0#11 then
        if h : mantissa = 0#52 then .zero sign
        else .finite sign mantissa.toNat (-1074) (by
          simpa [BitVec.toNat_pos, BitVec.pos_iff_ne_zero] using h)
      else .finite sign (1#1 ++ mantissa).toNat ((exponent.toNat : Int) - 1075)
        (by rw [toNat_one_append]; omega) := by
  have hbias : (Format.binary64.exponentBias : Int) = 1023 := by decide
  have hsign := unpackSign_packComponents sign exponent mantissa
  have hexponent : unpackExponent (packComponents .binary64 sign exponent mantissa) = exponent :=
    unpackExponent_packComponents
  have hmantissa : unpackMantissa (packComponents .binary64 sign exponent mantissa) = mantissa :=
    unpackMantissa_packComponents
  generalize packComponents .binary64 sign exponent mantissa = b at hsign hexponent hmantissa ⊢
  subst hexponent hmantissa
  unfold UnpackedFloat.unpack
  dsimp only
  rw [if_neg h, hsign, ofBitVec_toBitVec]
  by_cases hzero : unpackExponent b = 0#11
  · rw [if_pos hzero, if_pos hzero, hzero]
    rfl
  · rw [if_neg hzero, if_neg hzero]
    rfl

theorem exponent_ne_top {biased : Nat} (h : ¬ 2 ^ 11 ≤ biased + 1) :
    BitVec.ofNat 11 biased ≠ -1#11 := by
  intro heq
  have hnat := congrArg BitVec.toNat heq
  rw [BitVec.toNat_ofNat, Nat.mod_eq_of_lt (by omega)] at hnat
  have : (-1#11).toNat = 2047 := by decide
  omega

/-- A finite number survives packing, or becomes infinite. -/
theorem place_pack (sign : Sign) {m : Nat} {e : Int} (h : 0 < m) (hm : m < 2 ^ 53)
    (he : -1074 ≤ e) (hn : 2 ^ 52 ≤ m ∨ e = -1074) :
    placeOf (Float.Model.pack (.finite sign m e h)).unpack =
      sign.apply (min (m + (e + 1074) * 2 ^ 52) (2047 * 2 ^ 52)) := by
  have hbias : (Format.binary64.exponentBias : Int) = 1023 := by decide
  have hbits : Format.binary64.mantissaBits = 53 := by decide
  have hbiased : ((e + 1023 + (52 : Nat)).toNat : Int) = e + 1075 := by omega
  unfold Float.Model.unpack Float.Model.pack UnpackedFloat.pack
  dsimp only
  rw [hbias, hbits]
  generalize (e + 1023 + (52 : Nat)).toNat = biased at hbiased
  split
  · next htop =>
    rw [Int.min_eq_right (by omega)]
    cases sign <;> rfl
  · next htop =>
    rw [Int.min_eq_left (by omega)]
    have hlog := Nat.log2_lt (k := 52) (Nat.ne_of_gt h)
    split
    · next hnormal =>
      have hexp : (BitVec.ofNat 11 biased).toNat = biased := by
        rw [BitVec.toNat_ofNat, Nat.mod_eq_of_lt (by omega)]
      have hzero : BitVec.ofNat 11 biased ≠ 0#11 := by
        intro heq
        rw [heq] at hexp
        have : (0#11).toNat = 0 := by decide
        omega
      change placeOf (unpack .binary64 (packComponents .binary64 sign
        (BitVec.ofNat 11 biased) (BitVec.ofNat 52 m))) = _
      rw [unpack_components _ _ _ (exponent_ne_top htop), if_neg hzero, placeOf_finite,
        toNat_one_append, hexp, BitVec.toNat_ofNat]
      congr 1
      omega
    · next hnormal =>
      have hlog' := (Nat.log2_lt (Nat.ne_of_gt h)).2 hm
      have hm' : m < 2 ^ 52 := hlog.1 (by omega)
      obtain rfl : e = -1074 := by omega
      have hmant : (BitVec.ofNat 52 m).toNat = m := by
        rw [BitVec.toNat_ofNat, Nat.mod_eq_of_lt hm']
      have hzero : BitVec.ofNat 52 m ≠ 0#52 := by
        intro heq
        rw [heq] at hmant
        have : (0#52).toNat = 0 := by decide
        omega
      change placeOf (unpack .binary64 (packComponents .binary64 sign 0#11 (BitVec.ofNat 52 m))) = _
      rw [unpack_components _ _ _ (by decide), if_pos rfl, dif_neg hzero, placeOf_finite, hmant]

/-- Packing makes no NaN. -/
theorem real_pack {u : UnpackedFloat} (h : u ≠ .notANumber) :
    (Float.Model.pack u).unpack ≠ .notANumber := by
  have components : ∀ (sign : Sign) (exponent : BitVec 11) (mantissa : BitVec 52),
      exponent ≠ -1#11 →
      unpack .binary64 (packComponents .binary64 sign exponent mantissa) ≠ .notANumber := by
    intro sign exponent mantissa hexp
    rw [unpack_components _ _ _ hexp]
    by_cases hsmall : exponent = 0#11
    · rw [if_pos hsmall]
      by_cases hzero : mantissa = 0#52
      · rw [dif_pos hzero]
        exact fun h => by cases h
      · rw [dif_neg hzero]
        exact fun h => by cases h
    · rw [if_neg hsmall]
      exact fun h => by cases h
  cases u with
  | notANumber => exact absurd rfl h
  | infinity sign => cases sign <;> exact fun h => by cases h
  | zero sign => exact components sign 0#11 0#52 (by decide)
  | finite sign m e hm =>
    unfold Float.Model.unpack Float.Model.pack UnpackedFloat.pack
    dsimp only
    split
    · cases sign <;> exact fun h => by cases h
    · next htop =>
      split
      · exact components _ _ _ (exponent_ne_top htop)
      · exact components _ _ _ (by decide)

/-- A rounded number takes the place that its leading bits give, or the next one. -/
theorem place_round (sign : Sign) {m : Nat} {e t : Int} (accuracy : Accuracy)
    (ht : t = max (m.log2 + e - 52) (-1074)) (he : e ≤ t) :
    ∃ r : Nat, m / 2 ^ (t - e).toNat ≤ r ∧ r ≤ m / 2 ^ (t - e).toNat + 1 ∧ r ≤ 2 ^ 53 ∧
      (∀ bound, m ≤ bound * 2 ^ (t - e).toNat →
        (accuracy ≠ .exact → m < bound * 2 ^ (t - e).toNat) → r ≤ bound) ∧
      placeOf (Float.Model.pack (roundWithAccuracy .binary64 sign m e accuracy)).unpack =
        sign.apply (min (r + (t + 1074) * 2 ^ 52) (2047 * 2 ^ 52)) := by
  obtain ⟨r, hlow, hhigh, hr, hle, heq⟩ := round_eq sign accuracy ht he
  refine ⟨r, hlow, hhigh, hr, hle, ?_⟩
  have hnormal : t = -1074 ∨ 2 ^ 52 ≤ r := by
    by_cases h : t = -1074
    · exact .inl h
    · exact .inr (Nat.le_trans ((leading_bits (t - e).toNat (by omega)).2 (by omega)) hlow)
  rw [heq]
  by_cases hzero : r = 0
  · rw [dif_pos hzero]
    subst hzero
    obtain rfl : t = -1074 := by omega
    cases sign <;> rfl
  · rw [dif_neg hzero]
    by_cases hlt : r < 2 ^ 53
    · rw [if_pos hlt]
      exact place_pack sign _ hlt (by omega) (by omega)
    · rw [if_neg hlt]
      obtain rfl : r = 2 ^ 53 := by omega
      rw [place_pack sign _ (by decide) (by omega) (.inl (Nat.le_refl _))]
      congr 1
      omega

/-! ## Products -/

theorem unpack_mul (x y : Float) :
    (x * y).toModel.unpack =
      (Float.Model.pack (UnpackedFloat.mul .binary64 x.toModel.unpack y.toModel.unpack)).unpack :=
  rfl

theorem unpack_hundredth : (0.01 : Float).toModel.unpack =
    .finite .positive 0x147AE147AE147B (-59) (by decide) := by
  rfl

theorem unpack_tenth : (0.1 : Float).toModel.unpack =
    .finite .positive 0x1999999999999A (-56) (by decide) := by
  rfl

theorem unpack_half : (0.5 : Float).toModel.unpack =
    .finite .positive (2 ^ 52) (-53) (by decide) := by
  rfl

theorem unpack_two : (2 : Float).toModel.unpack =
    .finite .positive (2 ^ 52) (-51) (by decide) := by
  rfl

theorem mul_comm (x y : Float) : x * y = y * x := by
  have hmul : ∀ u v, UnpackedFloat.mul .binary64 u v = UnpackedFloat.mul .binary64 v u := by
    have hsign : ∀ s t : Sign, s * t = t * s := by
      intro s t
      cases s <;> cases t <;> rfl
    intro u v
    cases u <;> cases v <;> dsimp only [UnpackedFloat.mul] <;>
      simp only [hsign, Nat.mul_comm, Int.add_comm]
  change Float.ofModel (Float.Model.pack _) = Float.ofModel (Float.Model.pack _)
  rw [hmul]

/-- The product of a finite number with a positive one that is a whole number of parts of one. -/
theorem place_mul {c d : Float} {sign : Sign} {k m : Nat} {g e : Int} {hk : 0 < k} {hm : 0 < m}
    (hc : c.toModel.unpack = .finite .positive k g hk) (hg : g ≤ 0)
    (hd : d.toModel.unpack = .finite sign m e hm) :
    ∃ (t : Int) (r : Nat), t = max ((k * m).log2 + (g + e) - 52) (-1074) ∧ g + e ≤ t ∧
      k * m / 2 ^ (t - (g + e)).toNat ≤ r ∧ r ≤ k * m / 2 ^ (t - (g + e)).toNat + 1 ∧
      r ≤ 2 ^ 53 ∧ place (c * d) = sign.apply (min (r + (t + 1074) * 2 ^ 52) (2047 * 2 ^ 52)) := by
  have hsign : Sign.positive * sign = sign := by cases sign <;> rfl
  have hpos : 0 < k * m := Nat.mul_pos hk hm
  have he : g + e ≤ max ((k * m).log2 + (g + e) - 52) (-1074) := by
    obtain ⟨_, _, _, hn⟩ := canonical_unpack hd
    obtain hn | hn := hn
    · have hlog : 52 ≤ (k * m).log2 :=
        (Nat.le_log2 (Nat.ne_of_gt hpos)).2 (Nat.le_trans hn (Nat.le_mul_of_pos_left m hk))
      omega
    · omega
  obtain ⟨r, hlow, hhigh, hr, _, hplace⟩ := place_round sign .exact rfl he
  refine ⟨_, r, rfl, he, hlow, hhigh, hr, ?_⟩
  unfold place
  rw [unpack_mul, hc, hd]
  change placeOf (Float.Model.pack
    (roundWithAccuracy .binary64 (Sign.positive * sign) (k * m) (g + e) .exact)).unpack = _
  rw [hsign]
  exact hplace

theorem place_mul_infinity {c d : Float} {sign : Sign} {k : Nat} {g : Int} {hk : 0 < k}
    (hc : c.toModel.unpack = .finite .positive k g hk)
    (hd : d.toModel.unpack = .infinity sign) : place (c * d) = place d := by
  have hmul : UnpackedFloat.mul .binary64 (.finite .positive k g hk) (.infinity sign) =
      .infinity sign := by cases sign <;> rfl
  unfold place
  rw [unpack_mul, hc, hd, hmul]
  cases sign <;> rfl

theorem place_mul_zero {c d : Float} {sign : Sign} {k : Nat} {g : Int} {hk : 0 < k}
    (hc : c.toModel.unpack = .finite .positive k g hk)
    (hd : d.toModel.unpack = .zero sign) : place (c * d) = place d := by
  have hmul : UnpackedFloat.mul .binary64 (.finite .positive k g hk) (.zero sign) =
      .zero sign := by cases sign <;> rfl
  unfold place
  rw [unpack_mul, hc, hd, hmul]
  cases sign <;> rfl

theorem log2_mul_le {k m : Nat} (hk : k < 2 ^ 53) : (k * m).log2 ≤ 53 + m.log2 := by
  by_cases h : k * m = 0
  · rw [h]
    exact Nat.zero_le _
  · have hlt : k * m < 2 ^ (53 + m.log2 + 1) := by
      rw [Nat.add_assoc, Nat.pow_add]
      exact Nat.mul_lt_mul'' hk Nat.lt_log2_self
    have := (Nat.log2_lt h).2 hlt
    omega

theorem place_finite {d : Float} {m : Nat} {e : Int} {hm : 0 < m}
    (hd : d.toModel.unpack = .finite .positive m e hm) : place d = m + (e + 1074) * 2 ^ 52 := by
  unfold place
  rw [hd]
  rfl

theorem percent_place {d : Float} {m : Nat} {e : Int} {hm : 0 < m}
    (hd : d.toModel.unpack = .finite .positive m e hm) : place (0.01 * d) ≤ place d := by
  obtain ⟨hlt, hle, _, hn⟩ := canonical_unpack hd
  obtain ⟨t, r, ht, _, _, hr, hr', hplace⟩ := place_mul unpack_hundredth (by decide) hd
  have hlog := log2_mul_le (m := m) (show 0x147AE147AE147B < 2 ^ 53 by decide)
  have hlogm := (Nat.log2_lt (Nat.ne_of_gt hm)).2 hlt
  rw [hplace, place_finite hd]
  refine Int.le_trans (Int.min_le_left _ _) ?_
  -- below the exponent of `d` the last place has room; at that exponent both are subnormal
  by_cases hte : t < e
  · omega
  · have hshift : (t - (-59 + e)).toNat = 59 := by omega
    rw [hshift] at hr
    omega

/-- A tenth of the least positive number is rounded to zero. -/
theorem place_tenth_least {d : Float} (hd : d.toModel.unpack = .finite .positive 1 (-1074) Nat.one_pos) :
    place (0.1 * d) = 0 := by
  unfold place
  rw [unpack_mul, unpack_tenth, hd]
  rfl

theorem place_half {d : Float} {m : Nat} {e : Int} {hm : 0 < m}
    (hd : d.toModel.unpack = .finite .positive m e hm) : place (0.1 * d) ≤ place (0.5 * d) := by
  obtain ⟨hlt, hle, _, hn⟩ := canonical_unpack hd
  obtain ⟨t, r, ht, _, _, hr, hr', hplace⟩ := place_mul unpack_tenth (by decide) hd
  obtain ⟨u, q, hu, hu', hq, _, hq', hplace'⟩ := place_mul unpack_half (by decide) hd
  have hlog := log2_mul_le (m := m) (show 0x1999999999999A < 2 ^ 53 by decide)
  have hlogm := (Nat.log2_lt (Nat.ne_of_gt hm)).2 hlt
  have hpos : 0 < 2 ^ 52 * m := Nat.mul_pos (by decide) hm
  have hlog' : 52 + m.log2 ≤ (2 ^ 52 * m).log2 := by
    rw [Nat.le_log2 (Nat.ne_of_gt hpos), Nat.pow_add]
    exact Nat.mul_le_mul_left _ (Nat.log2_self_le (Nat.ne_of_gt hm))
  by_cases htu : t < u
  · -- the half is normal, and lies above the next power of two
    have hq'' := (leading_bits (m := 2 ^ 52 * m) (u - (-53 + e)).toNat (by omega)).2 (by omega)
    rw [hplace, hplace']
    change min _ _ ≤ min _ _
    omega
  · have he : e = -1074 ∨ e = -1073 ∧ 2 ^ 52 ≤ m := by
      have hlogn := Nat.le_log2 (k := 52) (Nat.ne_of_gt hm)
      omega
    obtain rfl | ⟨rfl, hn⟩ := he
    · by_cases hone : m = 1
      · subst hone
        rw [place_tenth_least hd, hplace']
        change 0 ≤ min _ _
        omega
      · have hshift : (t - (-56 + -1074)).toNat = 56 := by omega
        have hshift' : (u - (-53 + -1074)).toNat = 53 := by omega
        rw [hshift] at hr
        rw [hshift'] at hq
        rw [hplace, hplace']
        change min _ _ ≤ min _ _
        omega
    · have hshift : (t - (-56 + -1073)).toNat = 55 := by omega
      have hshift' : (u - (-53 + -1073)).toNat = 52 := by omega
      rw [hshift] at hr
      rw [hshift'] at hq
      rw [hplace, hplace']
      change min _ _ ≤ min _ _
      omega

theorem dite_ne {β : Type} {c : Prop} [Decidable c] {a : c → β} {b : ¬ c → β} {z : β}
    (ha : ∀ h, a h ≠ z) (hb : ∀ h, b h ≠ z) : dite c a b ≠ z := by
  by_cases h : c
  · rw [dif_pos h]
    exact ha h
  · rw [dif_neg h]
    exact hb h

theorem round_ne_nan (sign : Sign) (m : Nat) (e : Int) (accuracy : Accuracy) :
    roundWithAccuracy .binary64 sign m e accuracy ≠ .notANumber := by
  unfold roundWithAccuracy
  dsimp only
  exact dite_ne (fun _ h => by cases h) fun _ h => by cases h

/-- A product with a positive number has the sign of the other factor, and is a number if that is
one. -/
theorem mul_sign {c d : Float} {k : Nat} {g : Int} {hk : 0 < k}
    (hc : c.toModel.unpack = .finite .positive k g hk) (hg : g ≤ 0) (hd : Real d) :
    Real (c * d) ∧ (0 ≤ place d → 0 ≤ place (c * d)) ∧ (place d ≤ 0 → place (c * d) ≤ 0) := by
  have hreal : Real (c * d) := by
    unfold Real
    rw [unpack_mul, hc]
    refine real_pack ?_
    cases hu : d.toModel.unpack with
    | notANumber => exact absurd hu hd
    | infinity sign => exact fun h => by cases h
    | zero sign => exact fun h => by cases h
    | finite sign m e hm =>
      exact round_ne_nan _ _ _ _
  refine ⟨hreal, ?_⟩
  cases hu : d.toModel.unpack with
  | notANumber => exact absurd hu hd
  | infinity sign =>
    rw [place_mul_infinity hc hu]
    exact ⟨id, id⟩
  | zero sign =>
    rw [place_mul_zero hc hu]
    exact ⟨id, id⟩
  | finite sign m e hm =>
    have hbounds := place_bounds hm (canonical_unpack hu)
    obtain ⟨t, r, ht, _, _, _, _, hplace⟩ := place_mul hc hg hu
    rw [hplace]
    unfold place
    rw [hu, placeOf_finite]
    cases sign
    · simp only [Sign.apply]
      omega
    · simp only [Sign.apply]
      omega

/-- The opposite of a finite negative number is a finite positive one. -/
theorem neg_finite {x : Float} (hneg : place x < 0) (hfinite : x.toModel.unpack.isFinite = true) :
    ∃ m e hm, (-x).toModel.unpack = .finite .positive m e hm := by
  cases hu : x.toModel.unpack with
  | notANumber => rw [hu] at hfinite; cases hfinite
  | infinity sign => rw [hu] at hfinite; cases hfinite
  | zero sign =>
    unfold place at hneg
    rw [hu] at hneg
    cases hneg
  | finite sign m e hm =>
    have hbounds := place_bounds hm (canonical_unpack hu)
    obtain ⟨hlt, hle, _, hn⟩ := canonical_unpack hu
    cases sign with
    | positive =>
      unfold place at hneg
      rw [hu, placeOf_finite] at hneg
      exact absurd hneg (Int.not_lt.2 (Int.le_of_lt hbounds.1))
    | negative =>
      have hunpack : (-x).toModel.unpack =
          (Float.Model.pack (.finite .positive m e hm)).unpack := by
        change (Float.Model.pack x.toModel.unpack.neg).unpack = _
        rw [hu]
        rfl
      have hplace := place_pack .positive hm hlt hle hn
      have hreal : (Float.Model.pack (.finite .positive m e hm)).unpack ≠ .notANumber :=
        real_pack fun h => by cases h
      rw [hunpack]
      change _ = min _ _ at hplace
      cases hv : (Float.Model.pack (.finite .positive m e hm)).unpack with
      | notANumber => exact absurd hv hreal
      | infinity sign =>
        rw [hv] at hplace
        cases sign <;> dsimp only [placeOf, Sign.apply] at hplace <;> omega
      | zero sign =>
        rw [hv] at hplace
        dsimp only [placeOf] at hplace
        omega
      | finite sign k g hk =>
        have hbounds' := place_bounds hk (canonical_unpack hv)
        rw [hv, placeOf_finite] at hplace
        cases sign with
        | negative =>
          dsimp only [Sign.apply] at hplace
          omega
        | positive => exact ⟨k, g, hk, rfl⟩

theorem real_div {x y : Float} {m : Nat} {e : Int} {hm : 0 < m}
    (hx : x.toModel.unpack = .finite .positive m e hm) (hy : Real y) : Real (x / y) := by
  change (Float.Model.pack (UnpackedFloat.div .binary64 x.toModel.unpack
    y.toModel.unpack)).unpack ≠ .notANumber
  refine real_pack ?_
  rw [hx]
  cases hu : y.toModel.unpack with
  | notANumber => exact absurd hu hy
  | infinity sign => exact fun h => by cases h
  | zero sign => exact fun h => by cases h
  | finite sign k g hk => exact round_ne_nan _ _ _ _

theorem roundoff_place : 0 ≤ place roundoff := by decide +kernel

theorem real_roundoff : Real roundoff := by
  rw [← Binary64.isNaN_iff]
  decide +kernel

end Binary64

open Binary64 in
instance : LawfulScalar Float where
  le_trans x y z hxy hyz := by
    rw [le_iff] at hxy hyz ⊢
    exact ⟨hxy.1, hyz.2.1, Int.le_trans hxy.2.2 hyz.2.2⟩
  lt_iff x y := by
    rw [lt_iff, le_iff, le_iff]
    constructor
    · rintro ⟨hx, hy, h⟩
      exact ⟨⟨hx, hy, by omega⟩, fun ⟨_, _, h'⟩ => by omega⟩
    · rintro ⟨⟨hx, hy, h⟩, h'⟩
      refine ⟨hx, hy, ?_⟩
      by_cases hlt : place x < place y
      · exact hlt
      · exact absurd ⟨hy, hx, by omega⟩ h'
  le_total x y hx hy := by
    rw [Binary64.isNaN_iff] at hx hy
    rw [le_iff, le_iff]
    obtain h | h := Int.le_total (place x) (place y)
    · exact .inl ⟨hx, hy, h⟩
    · exact .inr ⟨hy, hx, h⟩
  real_of_le x y h := by
    rw [le_iff] at h
    exact ⟨(Binary64.isNaN_iff x).2 h.1, (Binary64.isNaN_iff y).2 h.2.1⟩
  real_of_finite x h := by
    rw [Binary64.isNaN_iff]
    intro hx
    have hfinite : x.toModel.unpack.isFinite = true := h
    rw [hx] at hfinite
    cases hfinite
  zero_le_one := by decide +kernel
  percent x t h := by
    rw [le_iff] at h
    obtain ⟨hx, hprod, hle⟩ := h
    have ht : Real t := by
      intro ht
      exact hprod (by rw [unpack_mul, ht]; rfl)
    by_cases hpos : place t ≤ 0
    · have hneg := (mul_sign unpack_hundredth (by decide) ht).2.2 hpos
      have hround := roundoff_place
      exact .inr ((le_iff _ _).2 ⟨hx, real_roundoff, by omega⟩)
    · refine .inl ((le_iff _ _).2 ⟨hx, ht, Int.le_trans hle ?_⟩)
      cases hu : t.toModel.unpack with
      | notANumber => exact absurd hu ht
      | infinity sign => exact Int.le_of_eq (place_mul_infinity unpack_hundredth hu)
      | zero sign => exact Int.le_of_eq (place_mul_zero unpack_hundredth hu)
      | finite sign m e hm =>
        have hbounds := place_bounds hm (canonical_unpack hu)
        cases sign with
        | negative =>
          unfold place at hpos
          rw [hu, placeOf_finite] at hpos
          simp only [Sign.apply] at hpos
          omega
        | positive => exact percent_place hu
  tenth_nonneg d h := by
    rw [le_iff] at h ⊢
    obtain ⟨hreal, hsign, _⟩ := mul_sign unpack_tenth (by decide) h.2.1
    exact ⟨h.1, hreal, hsign h.2.2⟩
  tenth_le_half d h := by
    rw [le_iff] at h ⊢
    obtain ⟨htenth, _⟩ := mul_sign unpack_tenth (by decide) h.2.1
    obtain ⟨hhalf, _⟩ := mul_sign unpack_half (by decide) h.2.1
    refine ⟨htenth, hhalf, ?_⟩
    cases hu : d.toModel.unpack with
    | notANumber => exact absurd hu h.2.1
    | infinity sign =>
      exact Int.le_of_eq
        ((place_mul_infinity unpack_tenth hu).trans (place_mul_infinity unpack_half hu).symm)
    | zero sign =>
      exact Int.le_of_eq
        ((place_mul_zero unpack_tenth hu).trans (place_mul_zero unpack_half hu).symm)
    | finite sign m e hm =>
      have hbounds := place_bounds hm (canonical_unpack hu)
      cases sign with
      | negative =>
        have hneg : place d = -(m + (e + 1074) * 2 ^ 52) := by
          unfold place
          rw [hu]
          rfl
        have hpos : 0 ≤ place d := h.2.2
        omega
      | positive => exact place_half hu
  half_nonneg d h := by
    rw [le_iff] at h ⊢
    obtain ⟨hreal, hsign, _⟩ := mul_sign unpack_half (by decide) h.2.1
    rw [mul_comm d]
    exact ⟨h.1, hreal, hsign h.2.2⟩
  vertex_real slope curvature hslope hfinite hcurvature := by
    rw [lt_iff] at hslope hcurvature
    rw [Binary64.isNaN_iff]
    have hneg : place slope < 0 := hslope.2.2
    obtain ⟨m, e, hm, hx⟩ := neg_finite hneg hfinite
    exact real_div hx (mul_sign unpack_two (by decide) hcurvature.2.1).1

end AlgebraicLoop
