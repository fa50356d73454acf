/-!
# Entries of vectors

The positions of a vector are in range by their type, so a vector is read at one of them without
a proof of that.
-/

namespace AlgebraicLoop
set_option autoImplicit false

instance entryAtPosition {β : Type} {n : Nat} : GetElem (Vector β n) (Fin n) β fun _ _ => True where
  getElem v i _ := getElem v i.val i.isLt

@[simp] theorem getElem_position {β : Type} {n : Nat} (v : Vector β n) (i : Fin n) :
    v[i] = getElem v i.val i.isLt := rfl

/-- A vector of length one has an entry at zero. -/
theorem pos_of_one {n : Nat} (h : n = 1) : 0 < n := by omega

section
variable {β γ : Type}

/-- A vector of two entries. -/
def pair (x y : β) : Vector β 2 := (Vector.singleton x).push y

/-- A function of the only entry. -/
def onOne (f : β → γ) (v : Vector β 1) : γ := f (getElem v 0 Nat.zero_lt_one)

/-- A function of both entries. -/
def onTwo (f : β → β → γ) (v : Vector β 2) : γ :=
  f (getElem v 0 Nat.zero_lt_two) (getElem v 1 Nat.one_lt_two)

end

end AlgebraicLoop
