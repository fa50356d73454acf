import AlgebraicLoop.Nominal

/-!
# Starting points from nominal values

The starting point is taken entry by entry. It exists unless some pair of bounds it would be confined
to is out of order.

* `nominalGuess?_eq_some`, `nominalGuess?_eq_none`: the starting point, and where there is none.
-/

namespace AlgebraicLoop
set_option autoImplicit false

/-! ## Partial functions entry by entry -/

section
variable {β γ : Type}

theorem list_mapM_eq_some {f : β → Option γ} {l : List β} {m : List γ} (h : l.mapM f = some m)
    (k : Nat) : l[k]?.bind f = m[k]? := by
  induction l generalizing m k with
  | nil =>
    cases h
    rfl
  | cons a l ih =>
    rw [List.mapM_cons] at h
    cases ha : f a with
    | none =>
      rw [ha] at h
      cases h
    | some b =>
      rw [ha] at h
      cases hl : l.mapM f with
      | none =>
        rw [hl] at h
        cases h
      | some m' =>
        rw [hl] at h
        cases h
        cases k with
        | zero => exact ha
        | succ k => exact ih hl k

theorem list_mapM_eq_none {f : β → Option γ} {l : List β} (h : l.mapM f = none) :
    ∃ a ∈ l, f a = none := by
  induction l with
  | nil => cases h
  | cons a l ih =>
    rw [List.mapM_cons] at h
    cases ha : f a with
    | none => exact ⟨a, List.mem_cons_self, ha⟩
    | some b =>
      rw [ha] at h
      cases hl : l.mapM f with
      | none =>
        obtain ⟨c, hc, hnone⟩ := ih hl
        exact ⟨c, List.mem_cons_of_mem a hc, hnone⟩
      | some m' =>
        rw [hl] at h
        cases h

variable {n : Nat}

theorem toList_mapM (f : β → Option γ) (v : Vector β n) :
    (v.mapM f).map Vector.toList = v.toList.mapM f := by
  have harray : (v.mapM f).map Vector.toArray = v.toArray.mapM f :=
    Vector.toArray_mapM (m := Option)
  have hlist : (v.toArray.mapM f).map Array.toList = v.toArray.toList.mapM f :=
    Array.toList_mapM (m := Option)
  rw [← harray, Option.map_map] at hlist
  exact hlist

theorem mapM_eq_some {f : β → Option γ} {v : Vector β n} {w : Vector γ n}
    (h : v.mapM f = some w) (i : Fin n) : f v[i] = some w[i] := by
  have hlist : v.toList.mapM f = some w.toList := by
    rw [← toList_mapM, h]
    rfl
  have hi := list_mapM_eq_some hlist i
  simpa using hi

theorem mapM_eq_none {f : β → Option γ} {v : Vector β n} (h : v.mapM f = none) :
    ∃ i : Fin n, f v[i] = none := by
  have hlist : v.toList.mapM f = none := by
    rw [← toList_mapM, h]
    rfl
  obtain ⟨a, ha, hnone⟩ := list_mapM_eq_none hlist
  obtain ⟨i, hi, rfl⟩ := List.getElem_of_mem ha
  refine ⟨⟨i, by simpa using hi⟩, ?_⟩
  simpa using hnone

end

/-! ## The starting point -/

section
variable {α : Type} [Scalar α] {n : Nat} {nominal lower upper : Vector α n} {confine : Bool}

theorem nominalGuess?_eq_some {x : Vector α n}
    (h : nominalGuess? nominal lower upper confine = some x) (i : Fin n) :
    nominalStart? nominal[i] lower[i] upper[i] confine = some x[i] := by
  simpa using mapM_eq_some h i

/-- There is no starting point only where bounds that confine it are out of order. -/
theorem nominalGuess?_eq_none (h : nominalGuess? nominal lower upper confine = none) :
    confine = true ∧ ∃ i : Fin n, ¬ lower[i] ≤ upper[i] := by
  obtain ⟨i, hi⟩ := mapM_eq_none h
  simp only [getElem_position, Vector.getElem_ofFn] at hi
  unfold nominalStart? clamp? at hi
  dsimp only at hi
  split at hi
  · next hconfine =>
    split at hi
    · cases hi
    · next hle => exact ⟨hconfine, i, hle⟩
  · cases hi

end

end AlgebraicLoop
