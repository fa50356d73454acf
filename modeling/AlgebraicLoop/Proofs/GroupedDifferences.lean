import AlgebraicLoop.Proofs.Binary64Laws
import AlgebraicLoop.Proofs.Counterparts
import AlgebraicLoop.Proofs.Exact
import AlgebraicLoop.Proofs.JacobianSteps

/-!
# Differences by groups of columns

The columns of a group share no row, so the evaluation that moves all of them gives each of them its
own rows as if it had been moved alone. Outside its rows a column of differences is zero in any
case, where the pattern is right about the residual.

* `Pattern.groups_apart`: the columns of one group share no row;
* `Pattern.Governs`: a residual whose rows depend on the unknowns that the pattern lists;
* `groups_agree_with_columns`: both ways lead to the same matrix, up to signs of zeros, and after a
  failed evaluation of a group nothing of the matrix is left over.
-/

namespace AlgebraicLoop
set_option autoImplicit false

/-! ## Groups -/

section
variable {ι : Type} {clash : ι → ι → Bool} {R : ι → ι → Prop}

theorem placeFirstFit_pairwise (hR : ∀ x y, clash x y = false → R y x) {x : ι}
    {groups : List (List ι)} (h : ∀ group ∈ groups, group.Pairwise R) :
    ∀ group ∈ placeFirstFit clash x groups, group.Pairwise R := by
  induction groups with
  | nil => simp [placeFirstFit]
  | cons group rest ih =>
    obtain ⟨hgroup, hrest⟩ := List.forall_mem_cons.1 h
    unfold placeFirstFit
    split
    · exact List.forall_mem_cons.2 ⟨hgroup, ih hrest⟩
    · next hnone =>
      have hfits : ∀ y ∈ group, R y x := fun y hy =>
        hR x y (Bool.eq_false_iff.2 fun hclash => hnone (List.any_eq_true.2 ⟨y, hy, hclash⟩))
      have hlonger : (group ++ [x]).Pairwise R :=
        List.pairwise_append.2 ⟨hgroup, List.pairwise_singleton R x, fun y hy z hz => by
          rw [List.mem_singleton.1 hz]
          exact hfits y hy⟩
      exact List.forall_mem_cons.2 ⟨hlonger, hrest⟩

/-- What holds of two elements that do not clash holds within each group. -/
theorem firstFit_pairwise (hR : ∀ x y, clash x y = false → R y x) (xs : List ι) :
    ∀ group ∈ firstFit clash xs, group.Pairwise R := by
  have fold : ∀ groups : List (List ι), (∀ group ∈ groups, group.Pairwise R) →
      ∀ group ∈ xs.foldl (fun groups x => placeFirstFit clash x groups) groups,
        group.Pairwise R := by
    induction xs with
    | nil => exact fun _ h => h
    | cons x xs ih => exact fun groups h => ih _ (placeFirstFit_pairwise hR h)
  exact fold [] nofun

end

namespace Pattern
variable {height width n : Nat}

/-- The two columns touch no common row. -/
def Apart (p : Pattern height width) (j k : Fin width) : Prop :=
  ∀ i ∈ p.rows[j], i ∉ p.rows[k]

instance (p : Pattern height width) : Std.Symm p.Apart := ⟨fun _ _ h i hk hj => h i hj hk⟩

theorem apart_of_clash {p : Pattern height width} {j k : Fin width} (h : p.clash j k = false) :
    p.Apart k j := fun i hk hj => by
  have hclash : p.clash j k = true :=
    List.any_eq_true.2 ⟨i, hj, List.contains_iff_mem.2 hk⟩
  rw [h] at hclash
  cases hclash

/-- The columns of one group share no row. -/
theorem groups_apart (p : Pattern height width) {group : List (Fin width)}
    (hgroup : group ∈ p.groups) {j k : Fin width} (hj : j ∈ group) (hk : k ∈ group)
    (hjk : j ≠ k) : p.Apart j k :=
  (firstFit_pairwise (R := p.Apart) (fun _ _ => apart_of_clash) _ group hgroup).forall hj hk hjk

/-- Each row of the residual depends on no other unknowns than those whose column lists it. -/
def Governs {α : Type} (p : Pattern n n) (F : Vector α n → Vector α n) : Prop :=
  ∀ (i : Fin n) (y z : Vector α n), (∀ j : Fin n, i ∈ p.rows[j] → y[j] = z[j]) →
    (F y)[i] = (F z)[i]

end Pattern

/-! ## Columns -/

/-- A finite number less itself, over a width, is a zero. -/
class Cancelling (α : Type) [Scalar α] : Prop where
  quotient_self : ∀ a width : α, isFinite a = true → width < 0 ∨ 0 < width →
    ((a - a) / width == 0) = true

/-- The same number, or two zeros. -/
def SameUpToZero {α : Type} [Scalar α] (a b : α) : Prop :=
  a = b ∨ (a == 0) = true ∧ (b == 0) = true

section
variable {α σ : Type} [Scalar α] {n : Nat}

/-- Where unknown `j` is moved to for a difference to one side. -/
def moved (P : Problem α σ n) (s : Session α σ n) (scale x : Vector α n) (j : Fin n) : α :=
  x[j] + inwardIncrement x[j] scale[j] P.options.differenceStep s.lower[j] s.upper[j]

theorem groupPoint_entry (P : Problem α σ n) (s : Session α σ n) (scale x : Vector α n)
    (group : List (Fin n)) (k : Fin n) :
    (groupPoint P s scale x group)[k] = if k ∈ group then moved P s scale x k else x[k] := by
  have fold : ∀ y : Vector α n,
      (group.foldl (fun (y : Vector α n) (j : Fin n) => y.set j (moved P s scale x j) j.isLt) y)[k] =
        if k ∈ group then moved P s scale x k else y[k] := by
    induction group with
    | nil => exact fun y => (if_neg List.not_mem_nil).symm
    | cons j rest ih =>
      intro y
      rw [List.foldl_cons, ih]
      by_cases hk : k ∈ rest
      · rw [if_pos hk, if_pos (List.mem_cons_of_mem j hk)]
      · rw [if_neg hk]
        by_cases hjk : k = j
        · subst hjk
          simp
        · rw [if_neg (by simp [hjk, hk])]
          have hval : j.val ≠ k.val := fun h => hjk (Fin.ext h.symm)
          simp [hval]
  exact fold x

theorem groupPoint_singleton (P : Problem α σ n) (s : Session α σ n) (scale x : Vector α n)
    (j : Fin n) : groupPoint P s scale x [j] = x.set j (moved P s scale x j) j.isLt := rfl

/-- The rows of a column have the same residual whether its unknown is moved alone or with its
group. -/
theorem Pattern.Governs.row_of_group {p : Pattern n n} {F : Vector α n → Vector α n}
    (hF : p.Governs F) (P : Problem α σ n) (s : Session α σ n) (scale x : Vector α n)
    {group : List (Fin n)} (hgroup : group ∈ p.groups) {i j : Fin n} (hj : j ∈ group)
    (hi : i ∈ p.rows[j]) :
    (F (groupPoint P s scale x group))[i] = (F (groupPoint P s scale x [j]))[i] := by
  refine hF i _ _ fun k hk => ?_
  rw [groupPoint_entry, groupPoint_entry]
  have hmem : k ∈ group ↔ k ∈ [j] := by
    rw [List.mem_singleton]
    constructor
    · intro hkg
      by_contra hkj
      exact p.groups_apart hgroup hkg hj hkj i hk hi
    · rintro rfl
      exact hj
  rw [if_congr hmem rfl rfl]

/-- The other rows do not notice that the unknown is moved. -/
theorem Pattern.Governs.row_outside {p : Pattern n n} {F : Vector α n → Vector α n}
    (hF : p.Governs F) (P : Problem α σ n) (s : Session α σ n) (scale x : Vector α n)
    {i j : Fin n} (hi : i ∉ p.rows[j]) : (F (groupPoint P s scale x [j]))[i] = (F x)[i] := by
  refine hF i _ _ fun k hk => ?_
  rw [groupPoint_entry, if_neg]
  rintro hkj
  rw [List.mem_singleton.1 hkj] at hk
  exact hi hk

/-- The width of the move of unknown `j`. -/
def moveWidth (P : Problem α σ n) (s : Session α σ n) (scale x : Vector α n) (j : Fin n) : α :=
  moved P s scale x j - x[j]

/-- The column that moving the group gives for `j`, where `F` is the residual. -/
def columnOfGroup (P : Problem α σ n) (s : Session α σ n) (scale : Vector α n) (p : Pattern n n)
    (x : Vector α n) (F : Vector α n → Vector α n) (group : List (Fin n)) (j : Fin n) :
    Vector α n :=
  groupColumn p x (F x) (groupPoint P s scale x group) (F (groupPoint P s scale x group)) j

/-- The column that moving `j` alone gives, where `F` is the residual. -/
def columnAlone (P : Problem α σ n) (s : Session α σ n) (scale x : Vector α n)
    (F : Vector α n → Vector α n) (j : Fin n) : Vector α n :=
  quotients (F (groupPoint P s scale x [j])) (F x) (moveWidth P s scale x j)

theorem columns_same [LawfulScalar α] [Cancelling α] {p : Pattern n n}
    {F : Vector α n → Vector α n} (hF : p.Governs F) (P : Problem α σ n) (s : Session α σ n)
    (scale x : Vector α n) (hfinite : allFinite (F x) = true) {group : List (Fin n)}
    (hgroup : group ∈ p.groups) {j : Fin n} (hj : j ∈ group)
    (hwidth : moveWidth P s scale x j < 0 ∨ 0 < moveWidth P s scale x j) (i : Fin n) :
    SameUpToZero (columnOfGroup P s scale p x F group j)[i] (columnAlone P s scale x F j)[i] := by
  have hpoint : (groupPoint P s scale x group)[j] = moved P s scale x j := by
    rw [groupPoint_entry, if_pos hj]
  have hgrouped : (columnOfGroup P s scale p x F group j)[i] =
      if i ∈ p.rows[j] then
        ((F (groupPoint P s scale x group))[i] - (F x)[i]) / moveWidth P s scale x j
      else 0 := by
    unfold columnOfGroup groupColumn moveWidth
    rw [← hpoint]
    simp
  have halone : (columnAlone P s scale x F j)[i] =
      ((F (groupPoint P s scale x [j]))[i] - (F x)[i]) / moveWidth P s scale x j := by
    simp [columnAlone, quotients]
  rw [hgrouped, halone]
  by_cases hi : i ∈ p.rows[j]
  · rw [if_pos hi, hF.row_of_group P s scale x hgroup hj hi]
    exact .inl rfl
  · rw [if_neg hi, hF.row_outside P s scale x hi]
    have hentry : isFinite (F x)[i] = true := Vector.all_eq_true.1 hfinite i i.isLt
    have hzero : ((0 : α) == 0) = true := by simpa [isNaN] using LawfulScalar.zero_real (α := α)
    exact .inr ⟨hzero, Cancelling.quotient_self _ _ hentry hwidth⟩

/-! ## Runs in which every evaluation answers -/

/-- The model gives the finite residual `F y` at `y`, whatever its state. -/
structure Answers (P : Problem α σ n) (F : Vector α n → Vector α n) (y : Vector α n) : Prop where
  answer : ∀ m, (P.model.evaluate y m).1 = .ok (F y)
  finite : allFinite (F y) = true

theorem Answers.evaluate {P : Problem α σ n} {F : Vector α n → Vector α n} {y : Vector α n}
    (h : Answers P F y) (s : Session α σ n) :
    ∃ t, AlgebraicLoop.evaluate P y s = .ok (.ok (F y)) t ∧ t.lower = s.lower ∧
      t.upper = s.upper := by
  rw [evaluate_apply, h.answer]
  dsimp only
  rw [findIllegal_none h.finite]
  exact ⟨_, rfl, rfl, rfl⟩

theorem groupPoint_congr (P : Problem α σ n) {s t : Session α σ n} (hlower : t.lower = s.lower)
    (hupper : t.upper = s.upper) (scale x : Vector α n) (group : List (Fin n)) :
    groupPoint P t scale x group = groupPoint P s scale x group := by
  unfold groupPoint
  rw [hlower, hupper]

omit [Scalar α] in
theorem Mat.setColumn_entry (A : Mat α n n) (j : Fin n) (column : Vector α n) (i k : Fin n) :
    (A.setColumn j column)[i][k] = if j = k then column[i] else A[i][k] := by
  simp [Mat.setColumn, Vector.getElem_set, Fin.ext_iff]

omit [Scalar α] in
theorem Mat.setColumns_entry (c : Fin n → Vector α n) (group : List (Fin n)) (A : Mat α n n)
    (i k : Fin n) : (group.foldl (fun A j => A.setColumn j (c j)) A)[i][k] =
      if k ∈ group then (c k)[i] else A[i][k] := by
  induction group generalizing A with
  | nil => exact (if_neg List.not_mem_nil).symm
  | cons j rest ih =>
    rw [List.foldl_cons, ih, Mat.setColumn_entry]
    by_cases hk : k ∈ rest
    · rw [if_pos hk, if_pos (List.mem_cons_of_mem j hk)]
    · rw [if_neg hk]
      by_cases hjk : j = k
      · subst hjk
        rw [if_pos rfl, if_pos List.mem_cons_self]
      · rw [if_neg hjk, if_neg (by simp [Ne.symm hjk, hk])]

/-- Every column of the groups comes from a group, the others stay. -/
theorem compressedDifferences_answered {P : Problem α σ n} {F : Vector α n → Vector α n}
    {scale x : Vector α n} {s : Session α σ n} (p : Pattern n n) {groups : List (List (Fin n))}
    (h : ∀ group ∈ groups, Answers P F (groupPoint P s scale x group)) (A : Mat α n n) :
    ∃ B t, compressedDifferences P scale p x (F x) storeJacobian groups A s = .ok (.ok B) t ∧
      ∀ i k : Fin n, (k ∉ groups.flatten ∧ B[i][k] = A[i][k]) ∨
        ∃ group ∈ groups, k ∈ group ∧ B[i][k] = (columnOfGroup P s scale p x F group k)[i] := by
  induction groups generalizing A s with
  | nil => exact ⟨A, s, rfl, fun _ _ => .inl ⟨List.not_mem_nil, rfl⟩⟩
  | cons group rest ih =>
    obtain ⟨hgroup, hrest⟩ := List.forall_mem_cons.1 h
    obtain ⟨t, ht, hlower, hupper⟩ := hgroup.evaluate s
    let B := group.foldl (fun A j => A.setColumn j (columnOfGroup P s scale p x F group j)) A
    let t' : Session α σ n := { t with work := { t.work with jacobian := B } }
    have hpoint : ∀ g, groupPoint P t' scale x g = groupPoint P s scale x g :=
      groupPoint_congr P hlower hupper scale x
    have hcolumn : ∀ g j, columnOfGroup P t' scale p x F g j = columnOfGroup P s scale p x F g j := by
      intro g j
      unfold columnOfGroup
      rw [hpoint]
    obtain ⟨C, u, hu, hC⟩ := @ih t' (fun g hg => by rw [hpoint]; exact hrest g hg) B
    refine ⟨C, u, ?_, fun i k => ?_⟩
    · unfold compressedDifferences
      rw [get_bind_apply, bind_ok ht]
      exact hu
    · obtain ⟨hk, hCB⟩ | ⟨g, hg, hk, hCg⟩ := hC i k
      · have hB : B[i][k] = if k ∈ group then (columnOfGroup P s scale p x F group k)[i]
            else A[i][k] := Mat.setColumns_entry _ group A i k
        rw [hCB, hB]
        by_cases hkg : k ∈ group
        · exact .inr ⟨group, List.mem_cons_self, hkg, if_pos hkg⟩
        · refine .inl ⟨?_, if_neg hkg⟩
          rw [List.flatten_cons, List.mem_append]
          exact not_or.2 ⟨hkg, hk⟩
      · rw [hcolumn] at hCg
        exact .inr ⟨g, List.mem_cons_of_mem group hg, hk, hCg⟩

theorem oneSidedColumn_answered {P : Problem α σ n} {F : Vector α n → Vector α n}
    {scale x : Vector α n} {s : Session α σ n} {j : Fin n}
    (h : Answers P F (groupPoint P s scale x [j])) :
    ∃ t, oneSidedColumn P scale x (F x) j s = .ok (.ok (columnAlone P s scale x F j)) t ∧
      t.lower = s.lower ∧ t.upper = s.upper := by
  obtain ⟨t, ht, hbox⟩ := h.evaluate s
  refine ⟨t, ?_, hbox⟩
  rw [groupPoint_singleton] at ht
  unfold oneSidedColumn
  rw [get_bind_apply]
  exact (bind_ok ht).trans rfl

theorem differences_answered {P : Problem α σ n} {F : Vector α n → Vector α n}
    {scale x : Vector α n} {s : Session α σ n}
    (h : ∀ j, Answers P F (groupPoint P s scale x [j])) (A : Mat α n n) :
    ∃ B t, differences P scale (fun _ => false) x (F x) storeJacobian A s = .ok (.ok B) t ∧
      ∀ i k : Fin n, B[i][k] = (columnAlone P s scale x F k)[i] := by
  have fill : ∀ (columns : List (Fin n)) (A : Mat α n n) (t : Session α σ n),
      t.lower = s.lower → t.upper = s.upper →
      ∃ B u, fillColumns (oneSidedColumn P scale x (F x)) storeJacobian columns A t =
          .ok (.ok B) u ∧
        ∀ i k : Fin n, B[i][k] =
          if k ∈ columns then (columnAlone P s scale x F k)[i] else A[i][k] := by
    intro columns
    induction columns with
    | nil => exact fun A t _ _ => ⟨A, t, rfl, fun _ _ => (if_neg List.not_mem_nil).symm⟩
    | cons j rest ih =>
      intro A t hlower hupper
      have hpoint : groupPoint P t scale x [j] = groupPoint P s scale x [j] :=
        groupPoint_congr P hlower hupper scale x [j]
      have hcolumn : columnAlone P t scale x F j = columnAlone P s scale x F j := by
        unfold columnAlone moveWidth moved
        rw [hpoint, hlower, hupper]
      obtain ⟨u, hu, hl, hup⟩ := @oneSidedColumn_answered _ _ _ _ P F scale x t j
        (by rw [hpoint]; exact h j)
      rw [hcolumn] at hu
      obtain ⟨B, v, hv, hB⟩ := ih (A.setColumn j (columnAlone P s scale x F j))
        { u with work := { u.work with jacobian := A.setColumn j (columnAlone P s scale x F j) } }
        (hl.trans hlower) (hup.trans hupper)
      refine ⟨B, v, ?_, fun i k => ?_⟩
      · unfold fillColumns
        rw [bind_ok hu]
        exact hv
      · rw [hB, Mat.setColumn_entry]
        by_cases hk : k ∈ rest
        · rw [if_pos hk, if_pos (List.mem_cons_of_mem j hk)]
        · rw [if_neg hk]
          by_cases hjk : j = k
          · subst hjk
            rw [if_pos rfl, if_pos List.mem_cons_self]
          · rw [if_neg hjk, if_neg (by simp [Ne.symm hjk, hk])]
  obtain ⟨B, t, ht, hB⟩ := fill (List.finRange n) A s rfl rfl
  exact ⟨B, t, ht, fun i k => (hB i k).trans (if_pos (List.mem_finRange k))⟩

/-! ## Runs in which a group fails -/

/-- The session with another matrix in place. -/
def Session.storing (s : Session α σ n) (A : Mat α n n) : Session α σ n :=
  { s with work := { s.work with jacobian := A } }

/-- The action neither reads nor writes the matrix in place. -/
def Unread {β : Type} (a : Action α σ n β) : Prop :=
  ∀ s A, a (s.storing A) = match a s with
    | .ok v t => .ok v (t.storing A)
    | .error halt t => .error halt (t.storing A)

omit [Scalar α] in
theorem Unread.bind {β γ : Type} {a : Action α σ n β} {f : β → Action α σ n γ} (ha : Unread a)
    (hf : ∀ v, Unread (f v)) : Unread (a >>= f) := by
  intro s A
  rw [bind_apply, bind_apply, ha s A]
  cases a s with
  | ok v t => exact hf v t A
  | error halt t => rfl

theorem unread_evaluate (P : Problem α σ n) (y : Vector α n) : Unread (evaluate P y) := by
  intro s A
  have hmodel : (s.storing A).model = s.model := rfl
  rw [evaluate_apply, evaluate_apply, hmodel]
  cases (P.model.evaluate y s.model).1 with
  | error failure => cases failure <;> rfl
  | ok g =>
    dsimp only
    cases g.findFinIdx? fun z => !isFinite z <;> rfl

theorem unread_oneSidedColumn (P : Problem α σ n) (scale x f : Vector α n) (j : Fin n) :
    Unread (oneSidedColumn P scale x f j) := by
  intro s A
  unfold oneSidedColumn
  rw [get_bind_apply, get_bind_apply]
  refine Unread.bind (unread_evaluate P _) (fun answer => ?_) s A
  cases answer with
  | ok g => exact fun _ _ => rfl
  | error mishap =>
    refine (unread_evaluate P _).bind fun answer => ?_
    cases answer <;> exact fun _ _ => rfl

omit [Scalar α] in
/-- Columns that do not read the matrix in place fill any matrix in the same way. -/
theorem fillColumns_storing {column : Fin n → Action α σ n (Except Mishap (Vector α n))}
    (hcolumn : ∀ j, Unread (column j)) {columns : List (Fin n)} {A B : Mat α n n}
    {s t : Session α σ n}
    (h : fillColumns column storeJacobian columns A s = .ok (.ok B) t) (A' C : Mat α n n) :
    ∃ B' u, fillColumns column storeJacobian columns A' (s.storing C) = .ok (.ok B') u ∧
      ∀ i k : Fin n, k ∈ columns ∨ A'[i][k] = A[i][k] → B'[i][k] = B[i][k] := by
  induction columns generalizing A A' C s with
  | nil =>
    cases h
    exact ⟨A', _, rfl, fun i k hk => hk.elim (fun h => absurd h List.not_mem_nil) id⟩
  | cons j rest ih =>
    unfold fillColumns at h ⊢
    obtain ⟨answer, u, hu, h⟩ := bind_eq_ok.1 h
    have hu' : column j (s.storing C) = .ok answer (u.storing C) := by rw [hcolumn j s C, hu]
    rw [bind_ok hu']
    cases answer with
    | error mishap => cases h
    | ok c =>
      obtain ⟨B', v, hv, hB⟩ := ih (s := u.storing (A.setColumn j c)) h (A'.setColumn j c)
        (A'.setColumn j c)
      refine ⟨B', v, hv, fun i k hk => hB i k ?_⟩
      rw [Mat.setColumn_entry, Mat.setColumn_entry]
      by_cases hjk : j = k
      · exact .inr (by rw [if_pos hjk, if_pos hjk])
      · rw [if_neg hjk, if_neg hjk]
        exact hk.imp (fun h => (List.mem_cons.1 h).resolve_left (Ne.symm hjk)) id

/-- Plain differences overwrite whatever matrix they find. -/
theorem differences_storing {P : Problem α σ n} {scale x f : Vector α n} {A B : Mat α n n}
    {s t : Session α σ n}
    (h : differences P scale (fun _ => false) x f storeJacobian A s = .ok (.ok B) t)
    (C : Mat α n n) :
    ∃ u, differences P scale (fun _ => false) x f storeJacobian C (s.storing C) =
      .ok (.ok B) u := by
  obtain ⟨B', u, hu, hB⟩ := fillColumns_storing (unread_oneSidedColumn P scale x f) h C C
  have hsame : B' = B := by
    ext i hi k hk
    exact hB ⟨i, hi⟩ ⟨k, hk⟩ (.inl (List.mem_finRange _))
  exact ⟨u, hsame ▸ hu⟩

theorem compressedDifferences_variableScale (P : Problem α σ n) (scale : Vector α n)
    (p : Pattern n n) (x f : Vector α n) (groups : List (List (Fin n))) (A : Mat α n n) :
    Follows (fun s t : Session α σ n => t.work.variableScale = s.work.variableScale)
      (compressedDifferences P scale p x f storeJacobian groups A) := by
  have hstill : Closed P true (fun s : Session α σ n => s.work.variableScale)
      fun _ a => Follows (fun s t : Session α σ n =>
        t.work.variableScale = s.work.variableScale) a :=
    closed_still P true (fun _ _ _ _ _ _ => rfl) fun _ _ _ => rfl
  refine hstill.compressedDifferences scale p x f (fun B s => ?_) groups A
  exact (rfl : s.work.variableScale = s.work.variableScale)

/-- The session in which the columns are differenced one by one, after the groups have failed. -/
def Session.grieved (s : Session α σ n) (mishap : Mishap) : Session α σ n :=
  { s with notices := s.notices.push (.compressedFailed mishap) }

theorem groupedJacobian_fallback {P : Problem α σ n} {p : Pattern n n} {x f : Vector α n}
    {s t : Session α σ n} {mishap : Mishap}
    (hfail : compressedDifferences P s.work.variableScale p x f storeJacobian p.groups
      s.work.jacobian s = .ok (.error mishap) t) :
    groupedJacobian P p x f s =
      differences P s.work.variableScale (fun _ => false) x f storeJacobian t.work.jacobian
        (t.grieved mishap) := by
  have hscale : t.work.variableScale = s.work.variableScale :=
    (compressedDifferences_variableScale P _ p x f _ _).ok hfail
  unfold groupedJacobian
  rw [get_bind_apply, bind_ok hfail, ← hscale]
  rfl

theorem evaluateJacobian_fallback {P : Problem α σ n} {p : Pattern n n} {x f : Vector α n}
    {s t u : Session α σ n} {mishap : Mishap} (hsource : P.options.jacobianSource = .compressed)
    (hdirectional : P.model.directional = none) (hpattern : s.work.pattern = some p)
    (hfail : compressedDifferences P s.work.variableScale p x f storeJacobian p.groups
      s.work.jacobian s = .ok (.error mishap) t)
    (hrun : evaluateJacobian P x f s = .ok (.ok ()) u) (C : Mat α n n) :
    ∃ v, differences P s.work.variableScale (fun _ => false) x f storeJacobian C
      ((t.grieved mishap).storing C) = .ok (.ok u.work.jacobian) v := by
  have hexact : exactJacobian? P x s.work.jacobian = none := by
    unfold exactJacobian?
    rw [if_neg (by rw [hsource]; exact nofun), hdirectional]
    rfl
  have hgrouped : sourceJacobian P x f s =
      (groupedJacobian P p x f >>= fun status => pure (status, false)) s := by
    unfold sourceJacobian
    rw [get_bind_apply, hexact, hpattern]
  obtain ⟨_, exact, w, hw, _⟩ := (evaluateJacobian_after P x f s).ok hrun
  rw [hgrouped] at hw
  obtain ⟨answer, v, hv, hw⟩ := bind_eq_ok.1 hw
  rw [groupedJacobian_fallback hfail] at hv
  cases hw
  exact differences_storing hv C

/-- Where every row of the residual depends on no other unknowns than the pattern says, no
evaluation fails and no unknown stays where it is, the groups give the matrix that the columns give
one by one, up to signs of zeros. After a group has failed, the matrix of an evaluation that succeeds
is the one of the columns one by one, whatever matrix these find. -/
theorem groups_agree_with_columns [LawfulScalar α] [Cancelling α] (P : Problem α σ n)
    (p : Pattern n n) :
    (∀ (F : Vector α n → Vector α n) (scale x : Vector α n) (s : Session α σ n),
      p.Governs F → allFinite (F x) = true →
      (∀ j, moveWidth P s scale x j < 0 ∨ 0 < moveWidth P s scale x j) →
      (∀ group ∈ p.groups, Answers P F (groupPoint P s scale x group)) →
      (∀ j, Answers P F (groupPoint P s scale x [j])) →
      ∃ t u,
        compressedDifferences P scale p x (F x) storeJacobian p.groups s.work.jacobian s =
            .ok (.ok t.work.jacobian) t ∧
          differences P scale (fun _ => false) x (F x) storeJacobian s.work.jacobian s =
            .ok (.ok u.work.jacobian) u ∧
          ∀ i j : Fin n, SameUpToZero t.work.jacobian[i][j] u.work.jacobian[i][j]) ∧
    ∀ (x f : Vector α n) (s t u : Session α σ n) (mishap : Mishap),
      P.options.jacobianSource = .compressed → P.model.directional = none →
      s.work.pattern = some p →
      compressedDifferences P s.work.variableScale p x f storeJacobian p.groups s.work.jacobian s =
        .ok (.error mishap) t →
      evaluateJacobian P x f s = .ok (.ok ()) u →
      ∀ C : Mat α n n, ∃ v,
        differences P s.work.variableScale (fun _ => false) x f storeJacobian C
          ((t.grieved mishap).storing C) = .ok (.ok u.work.jacobian) v := by
  constructor
  · intro F scale x s hF hfinite hwidth hgroups hcolumns
    obtain ⟨A, t, ht, hA⟩ := compressedDifferences_answered p hgroups s.work.jacobian
    obtain ⟨B, u, hu, hB⟩ := differences_answered hcolumns s.work.jacobian
    have htA : t.work.jacobian = A :=
      (compressedDifferences_stores P scale p x (F x) _ _ s rfl).ok ht A rfl
    have huB : u.work.jacobian = B := (differences_stores P scale _ x (F x) s).ok hu B rfl
    refine ⟨t, u, htA ▸ ht, huB ▸ hu, fun i j => ?_⟩
    rw [htA, huB, hB i j]
    obtain ⟨hj, _⟩ | ⟨group, hgroup, hj, hentry⟩ := hA i j
    · exact absurd (mem_firstFit.2 (List.mem_finRange j)) hj
    · rw [hentry]
      exact columns_same hF P s scale x hfinite hgroup hj (hwidth j) i
  · intro x f s t u mishap hsource hdirectional hpattern hfail hrun
    exact evaluateJacobian_fallback hsource hdirectional hpattern hfail hrun

end

/-! ## Differences that cancel -/

namespace Exact
variable {K : Type} [Field K] [LinearOrder K] [SquareRoot K]

theorem cancelled_div {width : Exact K} (h : width < 0 ∨ 0 < width) :
    (0 / width : Exact K) = 0 := by
  rw [zero_eq] at h ⊢
  cases width with
  | nan => exact absurd h (by rintro (⟨h, _⟩ | ⟨h, _⟩) <;> exact h)
  | posInfinity | negInfinity => rfl
  | finite b =>
    have hb : b ≠ 0 := by
      rw [finite_lt_finite, finite_lt_finite] at h
      exact h.elim ne_of_lt ne_of_gt
    rw [finite_div _ hb, zero_div]

instance [IsStrictOrderedRing K] : Cancelling (Exact K) where
  quotient_self a width ha hwidth := by
    obtain ⟨c, rfl⟩ := isFinite_iff.1 ha
    rw [finite_sub, sub_self, ← zero_eq, cancelled_div hwidth, beq_iff, zero_eq]
    exact ⟨le_refl (0 : K), le_refl (0 : K)⟩

end Exact

namespace Binary64
open Float.Model UnpackedFloat

theorem sub_self_zero {a : Float} (h : isFinite a = true) :
    (a - a).toModel.unpack = .zero .positive := by
  have hfinite : a.toModel.unpack.isFinite = true := h
  have hsub : UnpackedFloat.sub .binary64 a.toModel.unpack a.toModel.unpack = .zero .positive := by
    cases hu : a.toModel.unpack with
    | notANumber | infinity sign =>
      rw [hu] at hfinite
      cases hfinite
    | zero sign => cases sign <;> rfl
    | finite sign m e hm =>
      change UnpackedFloat.normalize .binary64 (_ - _) (min e e) .positive = _
      rw [Int.sub_self]
      rfl
  change (Float.Model.pack (UnpackedFloat.sub .binary64 a.toModel.unpack
    a.toModel.unpack)).unpack = _
  rw [hsub]
  rfl

theorem div_zero_unpack {z w : Float} {sign : Sign} (hz : z.toModel.unpack = .zero sign)
    (hw : Real w) (hplace : place w ≠ 0) : ∃ t, (z / w).toModel.unpack = .zero t := by
  have hdiv : ∃ t, UnpackedFloat.div .binary64 z.toModel.unpack w.toModel.unpack = .zero t := by
    rw [hz]
    cases hu : w.toModel.unpack with
    | notANumber => exact absurd hu hw
    | infinity t => exact ⟨_, rfl⟩
    | zero t => exact absurd (by unfold place; rw [hu]; rfl) hplace
    | finite t m e hm => exact ⟨_, rfl⟩
  obtain ⟨t, ht⟩ := hdiv
  refine ⟨t, ?_⟩
  change (Float.Model.pack (UnpackedFloat.div .binary64 z.toModel.unpack
    w.toModel.unpack)).unpack = _
  rw [ht]
  cases t <;> rfl

theorem beq_zero {z : Float} {sign : Sign} (hz : z.toModel.unpack = .zero sign) :
    (z == 0) = true := by
  change z.toModel.unpack.beq (0 : Float).toModel.unpack = true
  have hzero : (0 : Float).toModel.unpack = .zero .positive := rfl
  rw [hz, hzero]
  rfl

end Binary64

open Binary64 in
instance : Cancelling Float where
  quotient_self a width ha hwidth := by
    have hplace : Real width ∧ place width ≠ 0 := by
      have hzero : place 0 = 0 := by decide +kernel
      rw [Binary64.lt_iff, Binary64.lt_iff, hzero] at hwidth
      obtain ⟨hreal, _, h⟩ | ⟨_, hreal, h⟩ := hwidth
      · exact ⟨hreal, Int.ne_of_lt h⟩
      · exact ⟨hreal, Int.ne_of_gt h⟩
    obtain ⟨sign, h⟩ := div_zero_unpack (sub_self_zero ha) hplace.1 hplace.2
    exact beq_zero h

/-! ## A residual that is undefined in a corner -/

/-- Two squares less a number each. -/
def squares : Vector Float 2 → Vector Float 2 := onTwo fun x y => pair (x * x - 2) (y * y - 3)

/-- Are both unknowns above two? -/
def inCorner : Vector Float 2 → Bool := onTwo fun x y => decide (x > 2 ∧ y > 2)

/-- The squares, undefined where both unknowns are above two. -/
def cornered (x : Vector Float 2) : Except EvalFailure (Vector Float 2) :=
  if inCorner x then .error (.recoverable "undefined") else .ok (squares x)

/-- Each row depends on the unknown of its own number. -/
def diagonal : Pattern 2 2 := ⟨#v[[0], [1]]⟩

theorem diagonal_governs : diagonal.Governs squares := by
  refine Fin.forall_fin_two.2 ⟨fun y z h => ?_, fun y z h => ?_⟩
  · have hrow : y[0] = z[0] := h 0 (by decide)
    simp [squares, onTwo, pair, hrow]
  · have hrow : y[1] = z[1] := h 1 (by decide)
    simp [squares, onTwo, pair, hrow]

/-- The loop of the squares, differenced by groups. -/
def corneredProblem : Problem Float Unit 2 :=
  (Block.pointwise { Options.standard with jacobianSource := .compressed } (.replicate 2 1)
    cornered).problem

/-- A session of the loop that knows the pattern. -/
def corneredSession : Session Float Unit 2 :=
  { Session.fresh 2 () with work := { Workspace.fresh 2 with pattern := some diagonal } }

theorem cornered_answers {y : Vector Float 2} (h : ¬ inCorner y = true)
    (hfinite : allFinite (squares y) = true) : Answers corneredProblem squares y :=
  ⟨fun _ => if_neg h, hfinite⟩

set_option maxRecDepth 100000 in
/-- Away from the corner both unknowns are moved at once; at the corner that fails. -/
theorem groups_agree_with_columns_cornered :
    (∃ t u, compressedDifferences corneredProblem #v[1, 1] diagonal #v[1, 1] (squares #v[1, 1])
          storeJacobian diagonal.groups corneredSession.work.jacobian corneredSession =
            .ok (.ok t.work.jacobian) t ∧
        differences corneredProblem #v[1, 1] (fun _ => false) #v[1, 1] (squares #v[1, 1])
          storeJacobian corneredSession.work.jacobian corneredSession =
            .ok (.ok u.work.jacobian) u ∧
        ∀ i j : Fin 2, SameUpToZero t.work.jacobian[i][j] u.work.jacobian[i][j]) ∧
      ∃ (t u : Session Float Unit 2) (mishap : Mishap),
        compressedDifferences corneredProblem corneredSession.work.variableScale diagonal #v[2, 2]
            (squares #v[2, 2]) storeJacobian diagonal.groups corneredSession.work.jacobian
            corneredSession = .ok (.error mishap) t ∧
          evaluateJacobian corneredProblem #v[2, 2] (squares #v[2, 2]) corneredSession =
            .ok (.ok ()) u ∧
          ∀ C : Mat Float 2 2, ∃ v,
            differences corneredProblem corneredSession.work.variableScale (fun _ => false) #v[2, 2]
                (squares #v[2, 2]) storeJacobian C ((t.grieved mishap).storing C) =
              .ok (.ok u.work.jacobian) v := by
  obtain ⟨hagree, hfallback⟩ := groups_agree_with_columns corneredProblem diagonal
  constructor
  · have hwidth : ∀ j : Fin 2, moveWidth corneredProblem corneredSession #v[1, 1] #v[1, 1] j < 0 ∨
        0 < moveWidth corneredProblem corneredSession #v[1, 1] #v[1, 1] j := by decide +kernel
    have hgroups : ∀ group ∈ diagonal.groups, Answers corneredProblem squares
        (groupPoint corneredProblem corneredSession #v[1, 1] #v[1, 1] group) := by
      have hlist : diagonal.groups = [[0, 1]] := by decide
      rw [hlist]
      exact List.forall_mem_singleton.2 (cornered_answers (by decide +kernel) (by decide +kernel))
    have hcolumns : ∀ j : Fin 2, Answers corneredProblem squares
        (groupPoint corneredProblem corneredSession #v[1, 1] #v[1, 1] [j]) := by
      refine Fin.forall_fin_two.2 ⟨?_, ?_⟩
      · exact cornered_answers (by decide +kernel) (by decide +kernel)
      · exact cornered_answers (by decide +kernel) (by decide +kernel)
    exact hagree squares #v[1, 1] #v[1, 1] corneredSession diagonal_governs (by decide +kernel)
      hwidth hgroups hcolumns
  · have hfail : comesTo (compressedDifferences corneredProblem
          corneredSession.work.variableScale diagonal #v[2, 2] (squares #v[2, 2]) storeJacobian
          diagonal.groups corneredSession.work.jacobian) corneredSession
        (fun answer _ => !answer.isOk) = true := by decide +kernel
    have hrun : comesTo (evaluateJacobian corneredProblem #v[2, 2] (squares #v[2, 2]))
        corneredSession (fun answer _ => answer.isOk) = true := by decide +kernel
    obtain ⟨answer, t, ht, hanswer⟩ := exists_of_comesTo hfail
    obtain ⟨verdict, u, hu, hverdict⟩ := exists_of_comesTo hrun
    cases answer with
    | ok A => cases hanswer
    | error mishap =>
      cases verdict with
      | error _ => cases hverdict
      | ok _ =>
        exact ⟨t, u, mishap, ht, hu, hfallback #v[2, 2] (squares #v[2, 2]) corneredSession t u mishap
          rfl rfl rfl ht hu⟩

end AlgebraicLoop
