import AlgebraicLoop.Block

/-!
# Equations in other units

Every equation of a loop can be written in another unit: its residual grows by a factor, the scale of
the residual shrinks by it. What a solve decides on depends on neither.

* `Stretch`: a change of unit of a single number;
* `UnitChange`: a change of the units of all equations, for residuals, Jacobians and scales;
* `UnitChange.scaledNorm_eq`, `UnitChange.merit_eq`, `UnitChange.meritSlope_eq`,
  `UnitChange.steepestDescent_eq`: measures that do not change;
* `UnitChange.rowScales_matrix`, `UnitChange.broyden_matrix`: what changes along;
* `Stretch.record_bracket`, `Stretch.probe_search`: the search for a root.
-/

namespace AlgebraicLoop
set_option autoImplicit false

theorem findFinIdx?_eq_some {β : Type} {n : Nat} {v : Vector β n} {p : β → Bool} {i : Fin n} :
    v.findFinIdx? p = some i ↔ p v[i] = true ∧ ∀ j : Fin n, j < i → ¬ p v[j] = true := by
  obtain ⟨entries, rfl⟩ := v
  unfold Vector.findFinIdx?
  rw [Fin.cast_refl, Option.map_id, id_eq]
  exact Array.findFinIdx?_eq_some_iff

/-- The first entry with a property is at the same place in vectors that have it at the same
places. -/
theorem findFinIdx?_congr {β γ : Type} {n : Nat} {v : Vector β n} {w : Vector γ n} {p : β → Bool}
    {q : γ → Bool} (h : ∀ (i : Nat) (hi : i < n), p v[i] = q w[i]) :
    v.findFinIdx? p = w.findFinIdx? q := by
  refine Option.ext fun i => ?_
  simp only [findFinIdx?_eq_some, getElem_position, h]

section
variable {α : Type} [Scalar α] {n : Nat}

/-! ## One number -/

/-- A map of numbers that calculates and compares like the multiplication with a positive number. -/
structure Stretch (α : Type) [Scalar α] where
  map : α → α
  isFinite_map : ∀ y, isFinite (map y) = isFinite y
  map_zero : map 0 = 0
  map_add : ∀ y z, map y + map z = map (y + z)
  map_sub : ∀ y z, map y - map z = map (y - z)
  map_neg : ∀ y, -map y = map (-y)
  map_mul : ∀ y c, map y * c = map (y * c)
  mul_map : ∀ c y, c * map y = map (c * y)
  map_div : ∀ y c, map y / c = map (y / c)
  map_ratio : ∀ y z, map y / map z = y / z
  map_mulAdd : ∀ y c z, mulAdd (map y) c (map z) = map (mulAdd y c z)
  map_abs : ∀ y, abs (map y) = map (abs y)
  map_le : ∀ y z, map y ≤ map z ↔ y ≤ z
  map_lt : ∀ y z, map y < map z ↔ y < z
  map_beq : ∀ y z, (map y == map z) = (y == z)

/-- The numbers as they are. -/
def Stretch.none : Stretch α where
  map := id
  isFinite_map _ := rfl
  map_zero := rfl
  map_add _ _ := rfl
  map_sub _ _ := rfl
  map_neg _ := rfl
  map_mul _ _ := rfl
  mul_map _ _ := rfl
  map_div _ _ := rfl
  map_ratio _ _ := rfl
  map_mulAdd _ _ _ := rfl
  map_abs _ := rfl
  map_le _ _ := Iff.rfl
  map_lt _ _ := Iff.rfl
  map_beq _ _ := rfl

namespace Stretch
variable (φ : Stretch α)

theorem isNaN_map (y : α) : isNaN (φ.map y) = isNaN y := by
  unfold isNaN
  rw [φ.map_beq]

theorem larger_map (y z : α) : larger (φ.map y) (φ.map z) = φ.map (larger y z) := by
  unfold larger
  simp only [φ.isNaN_map, φ.map_lt]
  split <;> rfl

theorem maxNorm_map {m : Nat} (v : Vector α m) : maxNorm (v.map φ.map) = φ.map (maxNorm v) := by
  have hfold : v.foldl (fun norm x => larger norm (abs (φ.map x))) (φ.map 0) =
      φ.map (v.foldl (fun norm x => larger norm (abs x)) 0) :=
    Vector.foldl_hom φ.map fun y z => by rw [φ.map_abs, φ.larger_map]
  unfold maxNorm
  rw [Vector.foldl_map, ← hfold, φ.map_zero]

theorem fusedDot_map {m : Nat} (row x : Vector α m) :
    fusedDot (row.map φ.map) x = φ.map (fusedDot row x) := by
  have hfold : (row.zip x).foldl (fun sum z => mulAdd (φ.map z.1) z.2 sum) (φ.map 0) =
      φ.map ((row.zip x).foldl (fun sum z => mulAdd z.1 z.2 sum) 0) :=
    Vector.foldl_hom φ.map fun y z => φ.map_mulAdd z.1 z.2 y
  unfold fusedDot
  rw [Vector.zip_map_left, Vector.foldl_map, ← hfold, φ.map_zero]
  rfl

theorem map_le_zero (y : α) : φ.map y ≤ 0 ↔ y ≤ 0 := by rw [← φ.map_le y 0, φ.map_zero]

theorem map_lt_zero (y : α) : φ.map y < 0 ↔ y < 0 := by rw [← φ.map_lt y 0, φ.map_zero]

theorem zero_lt_map (y : α) : 0 < φ.map y ↔ 0 < y := by rw [← φ.map_lt 0 y, φ.map_zero]

theorem map_beq_zero (y : α) : (φ.map y == 0) = (y == 0) := by rw [← φ.map_beq y 0, φ.map_zero]

/-! ### Bracketing a root -/

/-- A sample with its value in the other unit. -/
def sample (p : Sample α) : Sample α := ⟨p.x, φ.map p.f⟩

/-- A bracket with its values in the other unit. -/
def bracket (b : Bracket α) : Bracket α := ⟨b.below.map φ.sample, b.above.map φ.sample⟩

theorem record_bracket (b : Bracket α) (p : Sample α) :
    (φ.bracket b).record (φ.sample p) = φ.bracket (b.record p) := by
  have lower : ∀ o : Option (Sample α),
      ((o.map φ.sample).all fun q => decide ((φ.sample p).f > q.f)) =
        o.all fun q => decide (p.f > q.f) := by
    intro o
    cases o with
    | none => rfl
    | some q => exact decide_eq_decide.2 (φ.map_lt q.f p.f)
  have upper : ∀ o : Option (Sample α),
      ((o.map φ.sample).all fun q => decide ((φ.sample p).f < q.f)) =
        o.all fun q => decide (p.f < q.f) := by
    intro o
    cases o with
    | none => rfl
    | some q => exact decide_eq_decide.2 (φ.map_lt p.f q.f)
  have hx : (φ.sample p).x = p.x := rfl
  have hfinite : isFinite (φ.sample p).f = isFinite p.f := φ.isFinite_map p.f
  have hside : (φ.sample p).f ≤ 0 ↔ p.f ≤ 0 := φ.map_le_zero p.f
  unfold Bracket.record
  simp only [bracket, lower, upper, hx, hfinite, hside]
  split
  · rfl
  · split
    · split <;> rfl
    · split <;> rfl

theorem interval_bracket (b : Bracket α) :
    (φ.bracket b).interval? = b.interval?.map fun ends => (φ.sample ends.1, φ.sample ends.2) := by
  obtain ⟨below, above⟩ := b
  cases below <;> cases above <;> rfl

/-- A search with its values in the other unit. -/
def search (r : RootSearch α) : RootSearch α :=
  { r with
    best := φ.sample r.best
    previous := φ.sample r.previous
    opposite := φ.sample r.opposite }

theorem sameSide_search (r : RootSearch α) : (φ.search r).sameSide = r.sameSide := by
  simp [RootSearch.sameSide, search, sample, φ.zero_lt_map, φ.map_lt_zero]

theorem arrange_search (r : RootSearch α) : (φ.search r).arrange = φ.search r.arrange := by
  have swap : ∀ r : RootSearch α,
      (if abs (φ.search r).opposite.f < abs (φ.search r).best.f then
        { φ.search r with
          previous := (φ.search r).best
          best := (φ.search r).opposite
          opposite := (φ.search r).best } else φ.search r) =
        φ.search (if abs r.opposite.f < abs r.best.f then
          { r with previous := r.best, best := r.opposite, opposite := r.best } else r) := by
    intro r
    simp only [search, sample, φ.map_abs, φ.map_lt]
    split <;> rfl
  unfold RootSearch.arrange
  rw [φ.sameSide_search]
  split
  · exact swap { r with
      opposite := r.previous
      move := r.best.x - r.previous.x
      lastMove := r.best.x - r.previous.x }
  · exact swap r

theorem finished_search (r : RootSearch α) (xtol : α) :
    (φ.search r).finished xtol = r.finished xtol := by
  refine decide_eq_decide.2 (or_congr Iff.rfl ?_)
  simp [search, sample, φ.map_beq_zero]

theorem chooseMove_search (r : RootSearch α) (xtol : α) :
    (φ.search r).chooseMove xtol = r.chooseMove xtol := by
  have hinterpolate : (φ.search r).interpolate = r.interpolate := by
    simp [RootSearch.interpolate, RootSearch.halfWidth, search, sample, φ.map_ratio]
  have hshrinks : abs (φ.search r).previous.f > abs (φ.search r).best.f ↔
      abs r.previous.f > abs r.best.f := by
    simp [search, sample, φ.map_abs, φ.map_lt]
  unfold RootSearch.chooseMove
  simp only [hinterpolate, hshrinks]
  rfl

theorem probe_search (r : RootSearch α) (xtol : α) :
    (φ.search r).probe xtol = r.probe xtol := by
  unfold RootSearch.probe
  rw [φ.chooseMove_search]
  rfl

theorem advance_search (r : RootSearch α) (xtol y : α) :
    (φ.search r).advance xtol (φ.map y) = φ.search (r.advance xtol y) := by
  unfold RootSearch.advance
  rw [φ.chooseMove_search, φ.probe_search]
  rfl

end Stretch

/-! ## All equations -/

/-- A change of the units of all equations: of their residuals, and of the scales of these. -/
structure UnitChange (α : Type) [Scalar α] (n : Nat) where
  grow : Fin n → Stretch α
  shrink : Fin n → α → α
  inverse : ∀ i y, 1 / (grow i).map y = shrink i (1 / y)
  grow_mul_shrink : ∀ i y w, (grow i).map y * shrink i w = y * w
  shrink_mul_grow : ∀ i w y, shrink i w * (grow i).map y = w * y
  weigh : ∀ i w y, shrink i w * shrink i w * (grow i).map y = shrink i (w * w * y)
  weigh_neg : ∀ i w y, -shrink i w * shrink i w * (grow i).map y = shrink i (-w * w * y)
  mulAdd_grow_shrink : ∀ i y w z, mulAdd ((grow i).map y) (shrink i w) z = mulAdd y w z
  isNaN_shrink : ∀ i w, isNaN (shrink i w) = isNaN w
  shrink_lt : ∀ i v w, shrink i v < shrink i w ↔ v < w
  /-- A system is solved by the same step in all units. -/
  solve : ∀ (A : Mat α n n) (lu lu' : LU α n) (f : Vector α n), LU.factor A = .ok lu →
    LU.factor (Vector.ofFn fun i => A[i].map (grow i).map) = .ok lu' → allFinite f = true →
    lu'.solve ((Vector.ofFn fun i => (grow i).map f[i]).map (- ·)) = lu.solve (f.map (- ·))

namespace UnitChange

/-- The equations as they are. -/
def none : UnitChange α n where
  grow _ := .none
  shrink _ := id
  inverse _ _ := rfl
  grow_mul_shrink _ _ _ := rfl
  shrink_mul_grow _ _ _ := rfl
  weigh _ _ _ := rfl
  weigh_neg _ _ _ := rfl
  mulAdd_grow_shrink _ _ _ _ := rfl
  isNaN_shrink _ _ := rfl
  shrink_lt _ _ _ := Iff.rfl
  solve A lu lu' f h h' _ := by
    have hA : (Vector.ofFn fun i : Fin n => A[i].map (Stretch.none : Stretch α).map) = A := by
      ext i hi j hj
      simp [Stretch.none]
    have hf : (Vector.ofFn fun i : Fin n => (Stretch.none : Stretch α).map f[i]) = f := by
      ext i hi
      simp [Stretch.none]
    rw [hA, h] at h'
    rw [hf]
    cases h'
    rfl

variable (U : UnitChange α n)

/-- A residual in the other units. -/
def residual (f : Vector α n) : Vector α n := Vector.ofFn fun i => (U.grow i).map f[i]

/-- A matrix whose rows belong to the equations, in their other units. -/
def matrix (A : Mat α n n) : Mat α n n := Vector.ofFn fun i => A[i].map (U.grow i).map

/-- Residual scales for the other units. -/
def scales (w : Vector α n) : Vector α n := Vector.ofFn fun i => U.shrink i w[i]

/-- The stretch of the values of a single equation. -/
def first : Stretch α := if h : 0 < n then U.grow ⟨0, h⟩ else .none

@[simp] theorem getElem_residual (f : Vector α n) (i : Nat) (hi : i < n) :
    (U.residual f)[i] = (U.grow ⟨i, hi⟩).map f[i] := by simp [residual]

@[simp] theorem getElem_matrix (A : Mat α n n) (i : Nat) (hi : i < n) :
    (U.matrix A)[i] = A[i].map (U.grow ⟨i, hi⟩).map := by simp [matrix]

@[simp] theorem getElem_scales (w : Vector α n) (i : Nat) (hi : i < n) :
    (U.scales w)[i] = U.shrink ⟨i, hi⟩ w[i] := by simp [scales]

theorem none_residual (f : Vector α n) : (none : UnitChange α n).residual f = f := by
  ext i hi
  simp [none, Stretch.none]

theorem none_matrix (A : Mat α n n) : (none : UnitChange α n).matrix A = A := by
  ext i hi j hj
  simp [none, Stretch.none]

theorem none_scales (w : Vector α n) : (none : UnitChange α n).scales w = w := by
  ext i hi
  simp [none]

theorem findIllegal_residual (f : Vector α n) :
    (U.residual f).findFinIdx? (fun y => !isFinite y) = f.findFinIdx? fun y => !isFinite y :=
  findFinIdx?_congr fun i hi => by simp [Stretch.isFinite_map]

theorem sampleOf_residual (x f : Vector α n) :
    sampleOf? x (U.residual f) = (sampleOf? x f).map U.first.sample := by
  unfold sampleOf?
  split
  · next h =>
    subst h
    simp [first, Stretch.sample]
  · rfl

theorem quotients_residual (g f : Vector α n) (width : α) :
    quotients (U.residual g) (U.residual f) width = U.residual (quotients g f width) := by
  ext i hi
  simp [quotients, Stretch.map_sub, Stretch.map_div]

theorem groupColumn_residual (pattern : Pattern n n) (x f y g : Vector α n) (j : Fin n) :
    groupColumn pattern x (U.residual f) y (U.residual g) j =
      U.residual (groupColumn pattern x f y g j) := by
  ext i hi
  simp only [groupColumn, Vector.getElem_ofFn, getElem_residual, getElem_position,
    Stretch.map_sub, Stretch.map_div]
  split
  · rfl
  · rw [Stretch.map_zero]

/-! ### Measures that stay -/

theorem zipWith_mul_scales (f w : Vector α n) :
    (U.residual f).zipWith (· * ·) (U.scales w) = f.zipWith (· * ·) w := by
  ext i hi
  simp [U.grow_mul_shrink]

theorem scaledNorm_eq (f w : Vector α n) :
    scaledNorm (U.residual f) (U.scales w) = scaledNorm f w := by
  unfold scaledNorm
  rw [zipWith_mul_scales]

theorem merit_eq (f w : Vector α n) : merit (U.residual f) (U.scales w) = merit f w := by
  have hsquares : (U.residual f).zipWith (fun y w => square (y * w)) (U.scales w) =
      f.zipWith (fun y w => square (y * w)) w := by
    ext i hi
    simp [U.grow_mul_shrink]
  unfold merit
  rw [hsquares]

theorem dot_eq (w f : Vector α n) : dot (U.scales w) (U.residual f) = dot w f := by
  have hproducts : (U.scales w).zipWith (· * ·) (U.residual f) = w.zipWith (· * ·) f := by
    ext i hi
    simp [U.shrink_mul_grow]
  unfold dot
  rw [hproducts]

theorem laneDot_eq (lane : Nat) (f w : Vector α n) :
    laneDot lane (U.residual f) (U.scales w) = laneDot lane f w := by
  unfold laneDot
  congr 1
  funext sum i
  simp [U.mulAdd_grow_shrink]

theorem interleavedDot_eq (f w : Vector α n) :
    interleavedDot (U.residual f) (U.scales w) = interleavedDot f w := by
  simp only [interleavedDot, laneDot_eq]

theorem apply_matrix (A : Mat α n n) (x : Vector α n) :
    (U.matrix A).apply x = U.residual (A.apply x) := by
  ext i hi
  simp [Mat.apply, Stretch.fusedDot_map]

theorem column_matrix (A : Mat α n n) (j : Fin n) :
    (U.matrix A).column j = U.residual (A.column j) := by
  ext i hi
  simp [Mat.column]

theorem applyTranspose_eq (A : Mat α n n) (w : Vector α n) :
    (U.matrix A).applyTranspose (U.scales w) = A.applyTranspose w := by
  ext j hj
  simp [Mat.applyTranspose, Mat.transpose, column_matrix, interleavedDot_eq]

theorem meritSlope_eq (J : Mat α n n) (f w step : Vector α n) :
    meritSlope (U.matrix J) (U.residual f) (U.scales w) step = meritSlope J f w step := by
  have hweighted : (U.scales w).zipWith (fun w y => w * w * y) (U.residual f) =
      U.scales (w.zipWith (fun w y => w * w * y) f) := by
    ext i hi
    simp [U.weigh]
  unfold meritSlope
  rw [hweighted, apply_matrix, dot_eq]

theorem downhillSlope_eq (J : Mat α n n) (f w step : Vector α n) :
    downhillSlope (U.matrix J) (U.residual f) (U.scales w) step = downhillSlope J f w step := by
  unfold downhillSlope
  rw [meritSlope_eq]

theorem steepestDescent_eq (J : Mat α n n) (f w : Vector α n) :
    steepestDescent? (U.matrix J) (U.residual f) (U.scales w) = steepestDescent? J f w := by
  have hweighted : (U.scales w).zipWith (fun w y => -w * w * y) (U.residual f) =
      U.scales (w.zipWith (fun w y => -w * w * y) f) := by
    ext i hi
    simp [U.weigh_neg]
  unfold steepestDescent?
  dsimp only
  rw [hweighted, applyTranspose_eq, merit_eq]

theorem scaledCondition_eq (J : Mat α n n) (w d : Vector α n) :
    scaledCondition (U.matrix J) (U.scales w) d = scaledCondition J w d := by
  have hscaled : (U.matrix J).zipWith (fun row w => row.zipWith (fun a d => w * a / d) d)
      (U.scales w) = J.zipWith (fun row w => row.zipWith (fun a d => w * a / d) d) w := by
    ext i hi j hj
    simp [U.shrink_mul_grow]
  unfold scaledCondition
  rw [hscaled]

/-! ### What changes along -/

theorem rowScales_matrix (J : Mat α n n) (nominal x : Vector α n) (tolerance : α) :
    rowScales (U.matrix J) nominal x tolerance = U.scales (rowScales J nominal x tolerance) := by
  ext i hi
  have hrow : (J[i].map (U.grow ⟨i, hi⟩).map).zipWith (fun a w => abs a * w)
      (columnWeights nominal x tolerance) =
      (J[i].zipWith (fun a w => abs a * w) (columnWeights nominal x tolerance)).map
        (U.grow ⟨i, hi⟩).map := by
    ext j hj
    simp [Stretch.map_abs, Stretch.map_mul]
  simp [rowScales, hrow, Stretch.maxNorm_map, U.inverse]

/-- The lesser of a new raw scale and the old one, a NaN kept. -/
theorem tightened_scales (raw old : Vector α n) :
    (U.scales raw).zipWith (fun r old => if isNaN r then r else smaller r old) (U.scales old) =
      U.scales (raw.zipWith (fun r old => if isNaN r then r else smaller r old) old) := by
  ext i hi
  simp only [Vector.getElem_zipWith, getElem_scales, U.isNaN_shrink, smaller, U.shrink_lt]
  split
  · rfl
  · split <;> rfl

theorem secantDefect_matrix (J : Mat α n n) (step old new : Vector α n) :
    secantDefect (U.matrix J) step (U.residual old) (U.residual new) =
      U.residual (secantDefect J step old new) := by
  ext i hi
  simp only [secantDefect, apply_matrix, Vector.getElem_ofFn, getElem_residual, getElem_position,
    Stretch.map_sub, Stretch.map_abs, Stretch.map_add, Stretch.mul_map, Stretch.map_lt]
  split
  · rw [Stretch.map_zero]
  · rfl

theorem broyden_matrix (J : Mat α n n) (step old new scale : Vector α n) :
    broyden (U.matrix J) step (U.residual old) (U.residual new) scale =
      (broyden J step old new scale).map U.matrix := by
  unfold broyden
  dsimp only
  split
  · simp only [Option.map_some, secantDefect_matrix, Option.some.injEq]
    ext i hi j hj
    simp [Stretch.map_mul, Stretch.map_add]
  · rfl

theorem lastIllegalEntry_matrix (A : Mat α n n) :
    lastIllegalEntry? (U.matrix A) = lastIllegalEntry? A := by
  unfold lastIllegalEntry?
  congr 1
  funext found cell
  simp [Stretch.isFinite_map]

end UnitChange

end

end AlgebraicLoop
