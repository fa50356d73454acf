import AlgebraicLoop.Indexing

/-!
# Dependency patterns and column groups

A pattern tells which residuals depend on which unknowns. Columns that share no row can be
differenced together; `firstFit` puts each column into the first group where it clashes with none.

* `firstFit`: first-fit grouping under any clash relation;
* `Pattern.groups`: the groups of the columns of a pattern.
-/

namespace AlgebraicLoop
set_option autoImplicit false

section
variable {β : Type}

/-- Adds `x` to the first group none of whose members clash with it, or to a new last group. -/
def placeFirstFit (clash : β → β → Bool) (x : β) : List (List β) → List (List β)
  | [] => [[x]]
  | group :: rest =>
    if group.any (clash x) then group :: placeFirstFit clash x rest
    else (group ++ [x]) :: rest

/-- First-fit grouping of a list, in its order. -/
def firstFit (clash : β → β → Bool) (xs : List β) : List (List β) :=
  xs.foldl (fun groups x => placeFirstFit clash x groups) []

end

/-- Which rows each column of a matrix of the given shape touches, in increasing order. -/
structure Pattern (height width : Nat) where
  rows : Vector (List (Fin height)) width
  deriving Repr

namespace Pattern
variable {height width : Nat}

/-- The pattern of the given cells; a cell given twice counts once. `none` when a cell lies outside
the matrix. -/
def ofCells? (height width : Nat) (cells : List (Nat × Nat)) : Option (Pattern height width) :=
  if cells.all fun (i, j) => i < height ∧ j < width then
    some ⟨Vector.ofFn fun j => (List.finRange height).filter fun i => cells.contains (i.val, j.val)⟩
  else
    none

/-- Do two columns touch a common row? -/
def clash (p : Pattern height width) (j k : Fin width) : Bool :=
  p.rows[j].any fun i => p.rows[k].contains i

/-- The columns in groups whose members touch no common row. -/
def groups (p : Pattern height width) : List (List (Fin width)) :=
  firstFit p.clash (List.finRange width)

end Pattern

/-- A pattern together with its shape. -/
structure SizedPattern where
  height : Nat
  width : Nat
  pattern : Pattern height width

/-- The pattern, if its shape is `n × n`. -/
def SizedPattern.square? (p : SizedPattern) (n : Nat) : Option (Pattern n n) :=
  if h : p.height = n ∧ p.width = n then
    some ⟨(p.pattern.rows.map fun rows => rows.map (Fin.cast h.1)).cast h.2⟩
  else
    none

end AlgebraicLoop
