import AlgebraicLoop.LineSearch

/-!
# Laws of numbers

`LawfulScalar` collects what the theorems about a solve ask of its numbers. The order is total on
the numbers that are not NaN; a NaN is comparable with nothing. The laws about products hold of
rounded arithmetic as well as of exact arithmetic.

* `le_larger_left`, `le_larger_right`: the greater of two numbers;
* `zero_le_maxNorm`: the greatest size of the entries of a vector;
* `shorten?_isSome`: a line search never finds its limits out of order.
-/

namespace AlgebraicLoop
set_option autoImplicit false

/-- What is asked of the numbers a loop is solved with. -/
class LawfulScalar (α : Type) [Scalar α] : Prop where
  le_trans : ∀ x y z : α, x ≤ y → y ≤ z → x ≤ z
  lt_iff : ∀ x y : α, x < y ↔ x ≤ y ∧ ¬ y ≤ x
  le_total : ∀ x y : α, isNaN x = false → isNaN y = false → x ≤ y ∨ y ≤ x
  real_of_le : ∀ x y : α, x ≤ y → isNaN x = false ∧ isNaN y = false
  real_of_finite : ∀ x : α, isFinite x = true → isNaN x = false
  zero_le_one : (0 : α) ≤ 1
  /-- One percent of a positive number is no more than the number. -/
  percent : ∀ x t : α, x ≤ 0.01 * t → x ≤ t ∨ x ≤ roundoff
  tenth_nonneg : ∀ d : α, 0 ≤ d → 0 ≤ 0.1 * d
  tenth_le_half : ∀ d : α, 0 ≤ d → 0.1 * d ≤ 0.5 * d
  half_nonneg : ∀ d : α, 0 ≤ d → 0 ≤ d * 0.5
  /-- A finite descent over a positive curvature is a number. -/
  vertex_real : ∀ slope curvature : α, slope < 0 → isFinite slope = true → 0 < curvature →
    isNaN (-slope / (2 * curvature)) = false

namespace LawfulScalar
variable {α : Type} [Scalar α] [LawfulScalar α] {x y z : α}

/-! ## Order -/

theorem le_of_lt (h : x < y) : x ≤ y := ((lt_iff x y).1 h).1

theorem not_le_of_lt (h : x < y) : ¬ y ≤ x := ((lt_iff x y).1 h).2

theorem not_lt_of_le (h : x ≤ y) : ¬ y < x := fun hlt => not_le_of_lt hlt h

theorem lt_asymm (h : x < y) : ¬ y < x := not_lt_of_le (le_of_lt h)

theorem lt_of_le_of_lt (h : x ≤ y) (h' : y < z) : x < z :=
  (lt_iff x z).2 ⟨le_trans x y z h (le_of_lt h'), fun hzx =>
    not_le_of_lt h' (le_trans z x y hzx h)⟩

theorem lt_of_lt_of_le (h : x < y) (h' : y ≤ z) : x < z :=
  (lt_iff x z).2 ⟨le_trans x y z (le_of_lt h) h', fun hzx =>
    not_le_of_lt h (le_trans y z x h' hzx)⟩

theorem le_of_not_lt (hx : isNaN x = false) (hy : isNaN y = false) (h : ¬ x < y) : y ≤ x := by
  obtain hle | hle := le_total x y hx hy
  · by_cases hyx : y ≤ x
    · exact hyx
    · exact absurd ((lt_iff x y).2 ⟨hle, hyx⟩) h
  · exact hle

theorem le_self (h : isNaN x = false) : x ≤ x := (le_total x x h h).elim id id

theorem zero_real : isNaN (0 : α) = false := (real_of_le _ _ (zero_le_one (α := α))).1

/-- What is below one of two numbers is below the greater one, on the left. -/
theorem le_larger_left (h : z ≤ x) : z ≤ larger x y := by
  unfold larger
  split
  · next hxy =>
    obtain hx | hxy := hxy
    · exact absurd hx (by rw [(real_of_le z x h).2]; exact Bool.false_ne_true)
    · exact le_trans z x y h (le_of_lt hxy)
  · exact h

/-- What is below one of two numbers is below the greater one, on the right. -/
theorem le_larger_right (h : z ≤ y) : z ≤ larger x y := by
  unfold larger
  split
  · exact h
  · next hxy =>
    obtain ⟨hx, hxy⟩ := not_or.1 hxy
    have hle : y ≤ x :=
      le_of_not_lt (Bool.eq_false_iff.2 hx) (real_of_le z y h).2 hxy
    exact le_trans z y x h hle

theorem zero_le_maxNorm {n : Nat} (v : Vector α n) : 0 ≤ maxNorm v := by
  have fold : ∀ (l : List α) (y : α), 0 ≤ y → 0 ≤ l.foldl (fun norm x => larger norm (abs x)) y := by
    intro l
    induction l with
    | nil => exact fun _ hy => hy
    | cons x l ih => exact fun y hy => ih _ (le_larger_left hy)
  unfold maxNorm
  rw [← Vector.foldl_toList]
  exact fold _ 0 (le_self zero_real)

/-! ## The line search -/

theorem parabolaMinimum_real {start now slope damping : α}
    (hslope : slope < 0 → isFinite slope = true) (hd : 0 ≤ damping) :
    isNaN (parabolaMinimum start now slope damping) = false := by
  unfold parabolaMinimum
  dsimp only
  split
  · next h => exact vertex_real slope _ h.1 (hslope h.1) h.2
  · exact (real_of_le _ _ (tenth_le_half damping hd)).2

/-- The shorter part of a step exists, and its damping is not negative. -/
theorem shorten?_isSome {start now slope damping : α}
    (hslope : slope < 0 → isFinite slope = true) (hd : 0 ≤ damping) :
    ∃ next, shorten? start now slope damping = some next ∧ 0 ≤ next := by
  have htenth : (0 : α) ≤ 0.1 * damping := tenth_nonneg damping hd
  have hlimits : 0.1 * damping ≤ 0.5 * damping := tenth_le_half damping hd
  have hreal : isNaN (parabolaMinimum start now slope damping) = false :=
    parabolaMinimum_real hslope hd
  unfold shorten? clamp?
  rw [if_pos hlimits]
  refine ⟨_, rfl, ?_⟩
  split
  · exact htenth
  · next hlow =>
    split
    · exact le_trans _ _ _ htenth hlimits
    · have hle : 0.1 * damping ≤ parabolaMinimum start now slope damping :=
        le_of_not_lt hreal (real_of_le _ _ hlimits).1 hlow
      exact le_trans _ _ _ htenth hle

theorem downhillSlope_finite {n : Nat} (J : Mat α n n) (f scale step : Vector α n) :
    downhillSlope J f scale step < 0 → isFinite (downhillSlope J f scale step) = true := by
  unfold downhillSlope
  dsimp only
  split
  · intro h
    exact absurd h (not_lt_of_le (le_self zero_real))
  · next h =>
    intro _
    obtain ⟨_, hfinite⟩ := not_or.1 h
    simpa using hfinite

end LawfulScalar

end AlgebraicLoop
