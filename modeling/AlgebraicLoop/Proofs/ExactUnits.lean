import AlgebraicLoop.Proofs.ExactElimination
import AlgebraicLoop.Proofs.UnitChanges

/-!
# Units without rounding

Over numbers without rounding the equations of a loop can be written in any units: the residual of
equation `i` is multiplied with a positive number `d i`, its scale is divided by it.

* `Stretch.times`: the multiplication with a positive number;
* `UnitChange.diagonal`: the change of all units.
-/

namespace AlgebraicLoop
set_option autoImplicit false

open Exact

section
variable {K : Type} [Field K] [LinearOrder K] [IsStrictOrderedRing K] [SquareRoot K] {n : Nat}

/-! ## Products -/

section
omit [IsStrictOrderedRing K] [SquareRoot K]

omit [Field K] [LinearOrder K] in
/-- A number that is not finite is given by its sign. -/
theorem finite_or_ofSign (x : Exact K) : (∃ a, x = finite a) ∨ ∃ s, x = ofSign s := by
  cases x with
  | finite a => exact .inl ⟨a, rfl⟩
  | posInfinity => exact .inr ⟨1, rfl⟩
  | negInfinity => exact .inr ⟨-1, rfl⟩
  | nan => exact .inr ⟨0, rfl⟩

theorem sign_finite (a : K) : (finite a).sign = SignType.sign a := rfl

theorem sign_ofSign (s : SignType) : (ofSign s : Exact K).sign = s := by
  cases s <;> rfl

theorem finite_mul_finite (a b : K) : (finite a).mul (finite b) = finite (a * b) := rfl

theorem ofSign_mul (s : SignType) (x : Exact K) : (ofSign s).mul x = ofSign (s * x.sign) := by
  cases s <;> rfl

theorem mul_ofSign (x : Exact K) (s : SignType) : x.mul (ofSign s) = ofSign (x.sign * s) := by
  cases s <;> cases x <;> rfl

end

theorem exact_mul_assoc (x y z : Exact K) : x * y * z = x * (y * z) := by
  change (x.mul y).mul z = x.mul (y.mul z)
  obtain ⟨a, rfl⟩ | ⟨s, rfl⟩ := finite_or_ofSign x <;>
    obtain ⟨b, rfl⟩ | ⟨t, rfl⟩ := finite_or_ofSign y <;>
      obtain ⟨c, rfl⟩ | ⟨u, rfl⟩ := finite_or_ofSign z <;>
        simp only [finite_mul_finite, ofSign_mul, mul_ofSign, sign_finite, sign_ofSign, sign_mul,
          mul_assoc]

/-! ## Multiplication with a positive number -/

/-- A number in units `d` times as small; only the finite ones change. -/
def enlarged (d : K) : Exact K → Exact K
  | finite a => finite (d * a)
  | posInfinity => posInfinity
  | negInfinity => negInfinity
  | nan => nan

variable {d : K}

omit [IsStrictOrderedRing K] in
theorem finite_mul_eq (hd : 0 < d) (y : Exact K) : finite d * y = enlarged d y := by
  cases y with
  | finite a => rfl
  | posInfinity => exact finite_mul_posInfinity hd
  | negInfinity => exact finite_mul_negInfinity hd
  | nan => exact mul_nan _

omit [IsStrictOrderedRing K] in
theorem enlarged_add (y z : Exact K) : enlarged d y + enlarged d z = enlarged d (y + z) := by
  cases y <;> cases z <;> first | rfl | exact congrArg finite (mul_add _ _ _).symm

omit [IsStrictOrderedRing K] in
theorem enlarged_neg (y : Exact K) : -enlarged d y = enlarged d (-y) := by
  cases y <;> first | rfl | exact congrArg finite (mul_neg _ _).symm

theorem enlarged_abs (hd : 0 < d) (y : Exact K) : abs (enlarged d y) = enlarged d (abs y) := by
  cases y <;> first | rfl | exact congrArg finite (by rw [abs_mul, abs_of_pos hd])

theorem enlarged_le (hd : 0 < d) (y z : Exact K) : enlarged d y ≤ enlarged d z ↔ y ≤ z := by
  cases y <;> cases z <;> first | rfl | exact mul_le_mul_iff_right₀ hd

omit [LinearOrder K] [IsStrictOrderedRing K] [SquareRoot K] in
theorem enlarged_ofSign (s : SignType) : enlarged d (ofSign s) = ofSign s := by
  cases s <;> rfl

theorem enlarged_div (hd : 0 < d) (y c : Exact K) : enlarged d y / c = enlarged d (y / c) := by
  cases y with
  | nan => rfl
  | finite a =>
    cases c with
    | nan => rfl
    | posInfinity => exact congrArg finite (mul_zero d).symm
    | negInfinity => exact congrArg finite (mul_zero d).symm
    | finite b =>
      change (if b = 0 then ofSign (SignType.sign (d * a)) else finite (d * a / b)) =
        enlarged d (if b = 0 then ofSign (SignType.sign a) else finite (a / b))
      split
      · rw [sign_mul, sign_pos hd, one_mul, enlarged_ofSign]
      · exact congrArg finite (mul_div_assoc d a b)
  | posInfinity =>
    cases c with
    | finite b => exact (enlarged_ofSign _).symm
    | _ => rfl
  | negInfinity =>
    cases c with
    | finite b => exact (enlarged_ofSign _).symm
    | _ => rfl

theorem enlarged_ratio (hd : 0 < d) (y z : Exact K) : enlarged d y / enlarged d z = y / z := by
  have hzero : ∀ b : K, d * b = 0 ↔ b = 0 := fun b => by simp [hd.ne']
  have hneg : ∀ b : K, d * b < 0 ↔ b < 0 := fun b => by
    simpa using (mul_lt_mul_iff_right₀ hd : d * b < d * 0 ↔ b < 0)
  cases y with
  | nan => rfl
  | finite a =>
    cases z with
    | finite b =>
      change (if d * b = 0 then ofSign (SignType.sign (d * a)) else finite (d * a / (d * b))) =
        if b = 0 then ofSign (SignType.sign a) else finite (a / b)
      rw [sign_mul, sign_pos hd, one_mul, mul_div_mul_left a b hd.ne']
      simp only [hzero]
    | _ => rfl
  | posInfinity =>
    cases z with
    | finite b =>
      change ofSign (1 * if d * b < 0 then -1 else 1) = ofSign (1 * if b < 0 then -1 else 1)
      simp only [hneg]
    | _ => rfl
  | negInfinity =>
    cases z with
    | finite b =>
      change ofSign (-1 * if d * b < 0 then -1 else 1) = ofSign (-1 * if b < 0 then -1 else 1)
      simp only [hneg]
    | _ => rfl

/-- The multiplication with a positive number. -/
def Stretch.times (d : K) (hd : 0 < d) : Stretch (Exact K) where
  map y := finite d * y
  isFinite_map y := by
    rw [finite_mul_eq hd]
    cases y <;> rfl
  map_zero := by rw [zero_eq, finite_mul, mul_zero]
  map_add y z := by simp only [finite_mul_eq hd, enlarged_add]
  map_sub y z := by
    change finite d * y + -(finite d * z) = finite d * (y + -z)
    simp only [finite_mul_eq hd, enlarged_neg, enlarged_add]
  map_neg y := by simp only [finite_mul_eq hd, enlarged_neg]
  map_mul y c := exact_mul_assoc _ y c
  mul_map c y := by rw [exact_mul_comm c, exact_mul_assoc, exact_mul_comm y]
  map_div y c := by simp only [finite_mul_eq hd, enlarged_div hd]
  map_ratio y z := by simp only [finite_mul_eq hd, enlarged_ratio hd]
  map_mulAdd y c z := by
    change finite d * y * c + finite d * z = finite d * (y * c + z)
    rw [exact_mul_assoc]
    simp only [finite_mul_eq hd, enlarged_add]
  map_abs y := by simp only [finite_mul_eq hd, enlarged_abs hd]
  map_le y z := by simp only [finite_mul_eq hd, enlarged_le hd]
  map_lt y z := by simp only [LawfulScalar.lt_iff, finite_mul_eq hd, enlarged_le hd]
  map_beq y z := by
    rw [Bool.eq_iff_iff, beq_iff, beq_iff]
    simp only [finite_mul_eq hd, enlarged_le hd]

/-! ## All units -/

theorem finite_mul_cancel {a b : K} (h : a * b = 1) (y : Exact K) : finite a * (finite b * y) = y := by
  rw [← exact_mul_assoc, finite_mul, h, finite_mul_eq zero_lt_one]
  cases y with
  | finite c => exact congrArg finite (one_mul c)
  | _ => rfl

section
variable (hd : 0 < d)
include hd

theorem times_mul_shrunk (y w : Exact K) : finite d * y * (finite d⁻¹ * w) = y * w := by
  have hmoved : y * (finite d⁻¹ * w) = finite d⁻¹ * (y * w) :=
    (Stretch.times d⁻¹ (inv_pos.2 hd)).mul_map y w
  rw [exact_mul_assoc, hmoved, finite_mul_cancel (mul_inv_cancel₀ hd.ne')]

theorem shrunk_mul_times (w y : Exact K) : finite d⁻¹ * w * (finite d * y) = w * y := by
  rw [exact_mul_comm, times_mul_shrunk hd, exact_mul_comm]

theorem shrunk_weigh (v w y : Exact K) :
    finite d⁻¹ * v * (finite d⁻¹ * w) * (finite d * y) = finite d⁻¹ * (v * w * y) := by
  rw [exact_mul_assoc (finite d⁻¹ * v), shrunk_mul_times hd, exact_mul_assoc, exact_mul_assoc]

end

/-- The residual of equation `i` is multiplied with `d i`, its scale is divided by it. -/
def UnitChange.diagonal (d : Fin n → K) (hd : ∀ i, 0 < d i) : UnitChange (Exact K) n where
  grow i := .times (d i) (hd i)
  shrink i w := finite (d i)⁻¹ * w
  inverse i y := by
    have hone : (1 : Exact K) = finite (d i) * (finite (d i)⁻¹ * 1) :=
      (finite_mul_cancel (mul_inv_cancel₀ (hd i).ne') 1).symm
    have hratio := (Stretch.times (d i) (hd i)).map_ratio (finite (d i)⁻¹ * 1) y
    have hdiv := (Stretch.times (d i)⁻¹ (inv_pos.2 (hd i))).map_div 1 y
    exact (congrArg (· / (finite (d i) * y)) hone).trans (hratio.trans hdiv)
  grow_mul_shrink i y w := times_mul_shrunk (hd i) y w
  shrink_mul_grow i w y := shrunk_mul_times (hd i) w y
  weigh i w y := shrunk_weigh (hd i) w w y
  weigh_neg i w y := by
    have hneg : -(finite (d i)⁻¹ * w) = finite (d i)⁻¹ * -w :=
      (Stretch.times (d i)⁻¹ (inv_pos.2 (hd i))).map_neg w
    rw [hneg]
    exact shrunk_weigh (hd i) (-w) w y
  mulAdd_grow_shrink i y w z := congrArg (· + z) (times_mul_shrunk (hd i) y w)
  isNaN_shrink i w := (Stretch.times (d i)⁻¹ (inv_pos.2 (hd i))).isNaN_map w
  shrink_lt i v w := (Stretch.times (d i)⁻¹ (inv_pos.2 (hd i))).map_lt v w
  solve A lu lu' f h h' hf := by
    have hneg : allFinite (f.map (- ·)) = true := by
      obtain ⟨v, rfl⟩ := allFinite_iff.1 hf
      exact allFinite_iff.2 ⟨fun i => -v i, by ext i hi; simp⟩
    refine factor_solve_scaled d (fun i => (hd i).ne') h h' (fun i => ?_) hneg fun i => ?_
    · simp [Stretch.times]
    · have hentry : -(finite (d i) * f[i]) = finite (d i) * -f[i] :=
        (Stretch.times (d i) (hd i)).map_neg f[i]
      simpa [Stretch.times] using hentry

end

end AlgebraicLoop
