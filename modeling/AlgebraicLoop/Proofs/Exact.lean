import AlgebraicLoop.Proofs.Laws
import Mathlib.Algebra.Order.Field.Basic
import Mathlib.Data.Sign.Basic
import Mathlib.Tactic.Linarith
import Mathlib.Tactic.Positivity
import Mathlib.Tactic.Ring

/-!
# Numbers without rounding

The numbers of an ordered field, with two infinities and a NaN, are numbers a loop can be solved
with. They follow the rules of binary64 without its rounding and without its signed zeros. What the
square root of a number is, is left open.

* `Exact`, `instScalarExact`: the numbers and their operations;
* `instLawfulScalarExact`: the laws they follow;
* `finite_add`, `finite_mul`: how the finite numbers calculate.
-/

namespace AlgebraicLoop
set_option autoImplicit false

/-- A number of an ordered field, an infinity, or not a number. -/
inductive Exact (K : Type) where
  | finite (x : K)
  | posInfinity
  | negInfinity
  | nan
  deriving DecidableEq, Repr

/-- A field with something to take for the square root of a number. -/
class SquareRoot (K : Type) where
  root : K → K

namespace Exact

/-! ## Operations -/

section
variable {K : Type} [Field K] [LinearOrder K]

/-- The infinity of a sign; a NaN without one. -/
def ofSign : SignType → Exact K
  | .pos => posInfinity
  | .neg => negInfinity
  | .zero => nan

/-- The sign of a number that is not a NaN. -/
def sign : Exact K → SignType
  | finite x => SignType.sign x
  | posInfinity => 1
  | negInfinity => -1
  | nan => 0

/-- The opposite number. -/
def neg : Exact K → Exact K
  | finite x => finite (-x)
  | posInfinity => negInfinity
  | negInfinity => posInfinity
  | nan => nan

/-- The sum; opposite infinities have none. -/
def add : Exact K → Exact K → Exact K
  | finite x, finite y => finite (x + y)
  | finite _, y => y
  | x, finite _ => x
  | posInfinity, posInfinity => posInfinity
  | negInfinity, negInfinity => negInfinity
  | _, _ => nan

/-- The product; zero and an infinity have none. -/
def mul : Exact K → Exact K → Exact K
  | finite x, finite y => finite (x * y)
  | x, y => ofSign (x.sign * y.sign)

/-- The quotient; a number other than zero divided by zero is infinite. -/
def div : Exact K → Exact K → Exact K
  | finite x, finite y => if y = 0 then ofSign (SignType.sign x) else finite (x / y)
  | nan, _ | _, nan => nan
  | finite _, _ => finite 0
  | x, finite y => ofSign (x.sign * if y < 0 then -1 else 1)
  | _, _ => nan

/-- The order; a NaN is comparable with nothing. -/
def le : Exact K → Exact K → Prop
  | nan, _ | _, nan => False
  | negInfinity, _ | _, posInfinity => True
  | finite x, finite y => x ≤ y
  | _, _ => False

instance decideLe : (x y : Exact K) → Decidable (le x y)
  | nan, _ | finite _, nan | posInfinity, nan | negInfinity, nan => .isFalse id
  | negInfinity, finite _ | negInfinity, posInfinity | negInfinity, negInfinity => .isTrue trivial
  | finite _, posInfinity | posInfinity, posInfinity => .isTrue trivial
  | finite x, finite y => inferInstanceAs (Decidable (x ≤ y))
  | finite _, negInfinity | posInfinity, finite _ | posInfinity, negInfinity => .isFalse id

/-- The absolute value. -/
def magnitude : Exact K → Exact K
  | finite x => finite |x|
  | posInfinity | negInfinity => posInfinity
  | nan => nan

end

end Exact

open Exact

instance instScalarExact {K : Type} [Field K] [LinearOrder K] [SquareRoot K] :
    Scalar (Exact K) where
  add := add
  sub x y := add x (neg y)
  mul := mul
  div := div
  neg := neg
  lt x y := le x y ∧ ¬ le y x
  le := le
  beq x y := decide (le x y) && decide (le y x)
  ofScientific m divides e := finite (if divides then (m : K) / 10 ^ e else m * 10 ^ e)
  ofNat k := finite k
  mulAdd x y z := add (mul x y) z
  abs := magnitude
  sqrt
    | finite x => if x < 0 then nan else finite (SquareRoot.root x)
    | posInfinity => posInfinity
    | _ => nan
  copySign x y := if le y (finite 0) ∧ ¬ le (finite 0) y then neg (magnitude x) else magnitude x
  isFinite
    | finite _ => true
    | _ => false
  infinity := posInfinity
  roundoff := finite (1 / 2 ^ 52)
  leastNormal := finite (1 / 2 ^ 1022)
  greatest := finite ((2 - 1 / 2 ^ 52) * 2 ^ 1023)
  decideLT x y := inferInstanceAs (Decidable (le x y ∧ ¬ le y x))
  decideLE x y := inferInstanceAs (Decidable (le x y))

section
variable {K : Type} [Field K] [LinearOrder K] [SquareRoot K] {x y z : Exact K} {a b : K}

/-! ## Finite numbers -/

@[simp] theorem finite_add (a b : K) : (finite a + finite b : Exact K) = finite (a + b) := rfl

@[simp] theorem finite_neg (a : K) : (-finite a : Exact K) = finite (-a) := rfl

@[simp] theorem finite_mul (a b : K) : (finite a * finite b : Exact K) = finite (a * b) := rfl

@[simp] theorem finite_sub (a b : K) : (finite a - finite b : Exact K) = finite (a - b) :=
  congrArg finite (sub_eq_add_neg a b).symm

theorem finite_div (a : K) (h : b ≠ 0) : (finite a / finite b : Exact K) = finite (a / b) :=
  if_neg h

@[simp] theorem finite_le_finite : (finite a : Exact K) ≤ finite b ↔ a ≤ b := Iff.rfl

@[simp] theorem finite_lt_finite : (finite a : Exact K) < finite b ↔ a < b :=
  lt_iff_le_not_ge.symm

@[simp] theorem abs_finite (a : K) : abs (finite a : Exact K) = finite |a| := rfl

@[simp] theorem isFinite_finite (a : K) : isFinite (finite a : Exact K) = true := rfl

theorem isFinite_iff : isFinite x = true ↔ ∃ a, x = finite a := by
  cases x with
  | finite a => exact ⟨fun _ => ⟨a, rfl⟩, fun _ => rfl⟩
  | _ => exact ⟨fun h => (by cases h), fun ⟨_, h⟩ => (by cases h)⟩

theorem zero_eq : (0 : Exact K) = finite 0 := congrArg finite Nat.cast_zero

theorem one_eq : (1 : Exact K) = finite 1 := congrArg finite Nat.cast_one

theorem beq_iff : (x == y) = true ↔ x ≤ y ∧ y ≤ x := by
  change (decide _ && decide _) = true ↔ _
  rw [Bool.and_eq_true, decide_eq_true_iff, decide_eq_true_iff]
  exact Iff.rfl

theorem finite_beq_zero : ((finite a : Exact K) == 0) = true ↔ a = 0 := by
  rw [zero_eq, beq_iff, finite_le_finite, finite_le_finite]
  exact le_antisymm_iff.symm

theorem isNaN_iff : isNaN x = true ↔ x = nan := by
  cases x with
  | finite a =>
    have hself : ((finite a : Exact K) == finite a) = true := beq_iff.2 ⟨le_refl a, le_refl a⟩
    unfold isNaN
    rw [hself]
    exact ⟨fun h => (by cases h), fun h => (by cases h)⟩
  | nan => exact ⟨fun _ => rfl, fun _ => rfl⟩
  | posInfinity => exact ⟨fun h => (by cases h), fun h => (by cases h)⟩
  | negInfinity => exact ⟨fun h => (by cases h), fun h => (by cases h)⟩

theorem scientific_eq (m : Nat) (divides : Bool) (e : Nat) :
    (OfScientific.ofScientific m divides e : Exact K) =
      finite (if divides then (m : K) / 10 ^ e else m * 10 ^ e) := rfl

theorem two_eq : (2 : Exact K) = finite 2 := congrArg finite (Nat.cast_ofNat : ((2 : ℕ) : K) = 2)

theorem roundoff_eq : (roundoff : Exact K) = finite (1 / 2 ^ 52) := rfl

theorem finite_mul_posInfinity (h : 0 < a) : (finite a * posInfinity : Exact K) = posInfinity := by
  change ofSign (SignType.sign a * 1) = _
  rw [sign_pos h]
  rfl

theorem finite_mul_negInfinity (h : 0 < a) : (finite a * negInfinity : Exact K) = negInfinity := by
  change ofSign (SignType.sign a * -1) = _
  rw [sign_pos h]
  rfl

theorem exact_mul_comm (x y : Exact K) : x * y = y * x := by
  change mul x y = mul y x
  cases x <;> cases y <;> simp only [mul, mul_comm]

@[simp] theorem mul_nan (x : Exact K) : x * nan = nan := by
  change mul x nan = nan
  cases x <;> simp only [mul, sign, mul_zero] <;> rfl

theorem add_nan (x : Exact K) : x + nan = nan ∧ nan + x = nan := by
  cases x with
  | _ => exact ⟨rfl, rfl⟩

/-! ## Laws -/

theorem exact_le_trans (h : x ≤ y) (h' : y ≤ z) : x ≤ z := by
  change le x y at h
  change le y z at h'
  change le x z
  cases x <;> cases y <;> cases z <;> simp only [le] at *
  exact h.trans h'

theorem exact_le_total (hx : x ≠ nan) (hy : y ≠ nan) : x ≤ y ∨ y ≤ x := by
  change le x y ∨ le y x
  cases x <;> cases y <;> simp only [le, true_or, or_true, ne_eq, not_true_eq_false] at *
  exact le_total _ _

theorem ne_nan_of_le (h : x ≤ y) : x ≠ nan ∧ y ≠ nan := by
  change le x y at h
  cases x <;> cases y <;> simp [le] at *

omit [Field K] [LinearOrder K] [SquareRoot K] in
theorem finite_ne_nan (a : K) : (finite a : Exact K) ≠ nan := by
  intro h
  cases h

theorem isNaN_eq_false_iff : isNaN x = false ↔ x ≠ nan := by
  rw [← Bool.not_eq_true, not_congr isNaN_iff]

end

section
variable {K : Type} [Field K] [LinearOrder K] [IsStrictOrderedRing K] [SquareRoot K]
  {x y z : Exact K} {a b : K}

theorem tenth_eq : (0.1 : Exact K) = finite (1 / 10) := by
  rw [scientific_eq]
  norm_num

theorem half_eq : (0.5 : Exact K) = finite (1 / 2) := by
  rw [scientific_eq]
  norm_num

theorem percent_eq : (0.01 : Exact K) = finite (1 / 100) := by
  rw [scientific_eq]
  norm_num

theorem lawful_percent (x t : Exact K) (h : x ≤ 0.01 * t) : x ≤ t ∨ x ≤ roundoff := by
  rw [percent_eq] at h
  rw [roundoff_eq]
  cases t with
  | nan => exact absurd (mul_nan _) (ne_nan_of_le h).2
  | posInfinity =>
    rw [finite_mul_posInfinity (by norm_num)] at h
    exact .inl h
  | negInfinity =>
    rw [finite_mul_negInfinity (by norm_num)] at h
    exact .inl h
  | finite t =>
    obtain ht | ht := le_total 0 t
    · exact .inl (exact_le_trans h (show 1 / 100 * t ≤ t by linarith))
    · refine .inr (exact_le_trans h (show 1 / 100 * t ≤ 1 / 2 ^ 52 from ?_))
      have : (0 : K) < 1 / 2 ^ 52 := by positivity
      linarith

/-- A number that is not negative stays so when multiplied with a positive one. -/
theorem finite_mul_nonneg (ha : 0 < a) {x : Exact K} (h : 0 ≤ x) : 0 ≤ finite a * x := by
  rw [zero_eq] at *
  cases x with
  | nan => exact absurd rfl (ne_nan_of_le h).2
  | negInfinity => exact h.elim
  | posInfinity =>
    rw [finite_mul_posInfinity ha]
    exact h
  | finite b => exact mul_nonneg ha.le h

theorem exact_mul_pos {p q : Exact K} (hp : 0 < p) (hq : 0 < q) : 0 < p * q := by
  rw [zero_eq] at *
  cases p with
  | nan => exact absurd rfl (ne_nan_of_le hp.1).2
  | negInfinity => exact hp.1.elim
  | finite a =>
    have ha : 0 < a := finite_lt_finite.1 hp
    cases q with
    | nan => exact absurd rfl (ne_nan_of_le hq.1).2
    | negInfinity => exact hq.1.elim
    | finite b => exact finite_lt_finite.2 (mul_pos ha (finite_lt_finite.1 hq))
    | posInfinity =>
      rw [finite_mul_posInfinity ha]
      exact ⟨trivial, id⟩
  | posInfinity =>
    cases q with
    | nan => exact absurd rfl (ne_nan_of_le hq.1).2
    | negInfinity => exact hq.1.elim
    | posInfinity => exact ⟨trivial, id⟩
    | finite b =>
      rw [exact_mul_comm, finite_mul_posInfinity (finite_lt_finite.1 hq)]
      exact ⟨trivial, id⟩

omit [IsStrictOrderedRing K] in
theorem smaller_pos {p q : Exact K} (hp : 0 < p) (hq : 0 < q) : 0 < smaller p q := by
  unfold smaller
  split
  · exact hp
  · exact hq

omit [IsStrictOrderedRing K] in
/-- A positive number that no finite number is below is finite itself. -/
theorem finite_of_not_lt {p : Exact K} (hp : 0 < p) (h : ¬ finite a < p) :
    ∃ c, p = finite c ∧ 0 < c ∧ c ≤ a := by
  rw [zero_eq] at hp
  cases p with
  | nan => exact absurd rfl (ne_nan_of_le hp.1).2
  | negInfinity => exact hp.1.elim
  | posInfinity => exact absurd ⟨trivial, id⟩ h
  | finite c =>
    exact ⟨c, rfl, finite_lt_finite.1 hp, not_lt.1 fun hlt => h (finite_lt_finite.2 hlt)⟩

instance instLawfulScalarExact : LawfulScalar (Exact K) where
  le_trans _ _ _ := exact_le_trans
  lt_iff _ _ := Iff.rfl
  le_total _ _ hx hy := exact_le_total (isNaN_eq_false_iff.1 hx) (isNaN_eq_false_iff.1 hy)
  real_of_le _ _ h :=
    ⟨isNaN_eq_false_iff.2 (ne_nan_of_le h).1, isNaN_eq_false_iff.2 (ne_nan_of_le h).2⟩
  real_of_finite x h := by
    obtain ⟨a, rfl⟩ := isFinite_iff.1 h
    exact isNaN_eq_false_iff.2 (by nofun)
  zero_le_one := by
    rw [zero_eq, one_eq]
    exact zero_le_one' K
  percent := lawful_percent
  tenth_nonneg d h := by
    rw [tenth_eq]
    exact finite_mul_nonneg (by norm_num) h
  tenth_le_half d h := by
    rw [tenth_eq, half_eq]
    rw [zero_eq] at h
    cases d with
    | nan => exact absurd rfl (ne_nan_of_le h).2
    | negInfinity => exact h.elim
    | posInfinity =>
      rw [finite_mul_posInfinity (by norm_num), finite_mul_posInfinity (by norm_num)]
      exact h
    | finite d =>
      have hd : (0 : K) ≤ d := h
      exact show 1 / 10 * d ≤ 1 / 2 * d by linarith
  half_nonneg d h := by
    rw [half_eq, exact_mul_comm]
    exact finite_mul_nonneg (by norm_num) h
  vertex_real slope curvature h hfinite hc := by
    obtain ⟨a, rfl⟩ := isFinite_iff.1 hfinite
    rw [two_eq]
    rw [zero_eq] at hc
    apply isNaN_eq_false_iff.2
    cases curvature with
    | nan => exact absurd rfl (ne_nan_of_le hc.1).2
    | negInfinity => exact hc.1.elim
    | posInfinity =>
      rw [finite_mul_posInfinity (by norm_num)]
      exact nofun
    | finite c =>
      have hpos : 0 < c := finite_lt_finite.1 hc
      rw [finite_mul, finite_neg, finite_div _ (by positivity)]
      exact nofun

end

end AlgebraicLoop
