import Mathlib.Data.List.FinRange
import Mathlib.Data.List.Perm.Basic
import AlgebraicLoop.Proofs.GroupedDifferences

/-!
# Column groups

The columns are placed one after the other, each into the first group where it shares no row with
any column already there. What a placement does is said once, for any clash relation; the groups of
a pattern follow by induction over the columns. A grouping can keep, beside each group, a table of
the rows that the group takes up: then a column fits where its own rows are free, and the groups
come out the same.

* `firstFit_perm`, `firstFit_sublist`, `firstFit_led`: what first-fit grouping leaves in each group;
* `Grouping.place`, `Pattern.groupsByTables`: the grouping with tables of occupied rows;
* `Pattern.FirstFitPartition`: each column once, in order, apart from the others of its group, and
  kept out of every earlier group by an earlier column there;
* `Pattern.groups_partition`: the groups of a pattern are such a partition, the tables give the same
  groups, and the rows of a column are those of its cells.
-/

namespace AlgebraicLoop
set_option autoImplicit false

/-! ## First-fit grouping -/

section
variable {ι : Type} {clash : ι → ι → Bool} {x : ι} {groups : List (List ι)}

theorem placeFirstFit_perm (clash : ι → ι → Bool) (x : ι) (groups : List (List ι)) :
    (placeFirstFit clash x groups).flatten.Perm (x :: groups.flatten) := by
  induction groups with
  | nil => exact List.Perm.refl _
  | cons group rest ih =>
    unfold placeFirstFit
    split
    · exact (ih.append_left group).trans List.perm_middle
    · rw [List.flatten_cons, List.append_assoc, List.singleton_append]
      exact List.perm_middle

theorem exists_mem_of_placeFirstFit {group : List ι} (hgroup : group ∈ placeFirstFit clash x groups)
    {y : ι} (hy : y ∈ group) : y = x ∨ ∃ older ∈ groups, y ∈ older := by
  have hall : y ∈ x :: groups.flatten :=
    (placeFirstFit_perm clash x groups).mem_iff.1 (List.mem_flatten.2 ⟨group, hgroup, hy⟩)
  rcases List.mem_cons.1 hall with rfl | hold
  · exact .inl rfl
  · exact .inr (List.mem_flatten.1 hold)

/-- Every element ends in the groups as often as it was there. -/
theorem firstFit_perm (clash : ι → ι → Bool) (xs : List ι) :
    (firstFit clash xs).flatten.Perm xs := by
  have fold : ∀ groups : List (List ι),
      (xs.foldl (fun groups x => placeFirstFit clash x groups) groups).flatten.Perm
        (groups.flatten ++ xs) := by
    induction xs with
    | nil => exact fun groups => by rw [List.append_nil]; exact List.Perm.refl _
    | cons x xs ih =>
      intro groups
      have hplaced : ((placeFirstFit clash x groups).flatten ++ xs).Perm
          (x :: groups.flatten ++ xs) := (placeFirstFit_perm clash x groups).append_right xs
      exact (ih _).trans (hplaced.trans List.perm_middle.symm)
  exact fold []

theorem placeFirstFit_sublist {seen : List ι} (h : ∀ group ∈ groups, group.Sublist seen) :
    ∀ group ∈ placeFirstFit clash x groups, group.Sublist (seen ++ [x]) := by
  induction groups with
  | nil =>
    intro group hgroup
    rw [List.mem_singleton.1 hgroup]
    exact List.sublist_append_right seen [x]
  | cons group rest ih =>
    obtain ⟨hgroup, hrest⟩ := List.forall_mem_cons.1 h
    have longer : ∀ group : List ι, group.Sublist seen → group.Sublist (seen ++ [x]) :=
      fun _ hsub => hsub.trans (List.sublist_append_left seen [x])
    unfold placeFirstFit
    split
    · exact List.forall_mem_cons.2 ⟨longer group hgroup, ih hrest⟩
    · exact List.forall_mem_cons.2 ⟨hgroup.append (List.Sublist.refl [x]),
        fun later hlater => longer later (hrest later hlater)⟩

/-- The elements of a group stand in the order in which they were given. -/
theorem firstFit_sublist (clash : ι → ι → Bool) (xs : List ι) :
    ∀ group ∈ firstFit clash xs, group.Sublist xs := by
  have fold : ∀ (seen : List ι) (groups : List (List ι)),
      (∀ group ∈ groups, group.Sublist seen) →
      ∀ group ∈ xs.foldl (fun groups x => placeFirstFit clash x groups) groups,
        group.Sublist (seen ++ xs) := by
    induction xs with
    | nil => exact fun seen groups h => by rw [List.append_nil]; exact h
    | cons x xs ih =>
      intro seen groups h
      have hrest := ih (seen ++ [x]) (placeFirstFit clash x groups) (placeFirstFit_sublist h)
      rwa [List.append_assoc, List.singleton_append] at hrest
  exact fold [] [] nofun

/-- Every member of a later group has some member of each earlier group before it. -/
def Led (R : ι → ι → Prop) (groups : List (List ι)) : Prop :=
  groups.Pairwise fun earlier later => ∀ y ∈ later, ∃ z ∈ earlier, R z y

/-- A new element passes over the groups where it clashes, so it is led there by what was seen. -/
theorem placeFirstFit_led {R : ι → ι → Prop}
    (hR : ∀ group ∈ groups, ∀ z ∈ group, clash x z = true → R z x) (h : Led R groups) :
    Led R (placeFirstFit clash x groups) := by
  induction groups with
  | nil => exact List.pairwise_singleton _ _
  | cons group rest ih =>
    obtain ⟨hgroup, hrest⟩ := List.pairwise_cons.1 h
    obtain ⟨hhead, htail⟩ := List.forall_mem_cons.1 hR
    unfold placeFirstFit
    split
    · next hany =>
      obtain ⟨z, hz, hclash⟩ := List.any_eq_true.1 hany
      refine List.pairwise_cons.2 ⟨fun later hlater y hy => ?_, ih htail hrest⟩
      rcases exists_mem_of_placeFirstFit hlater hy with rfl | ⟨older, holder, hy⟩
      · exact ⟨z, hz, hhead z hz hclash⟩
      · exact hgroup older holder y hy
    · refine List.pairwise_cons.2 ⟨fun later hlater y hy => ?_, hrest⟩
      obtain ⟨z, hz, hzy⟩ := hgroup later hlater y hy
      exact ⟨z, List.mem_append_left [x] hz, hzy⟩

/-- Each element is kept out of every earlier group by an earlier element there. -/
theorem firstFit_led {before : ι → ι → Prop} (clash : ι → ι → Bool) (xs : List ι)
    (hxs : xs.Pairwise before) :
    Led (fun z y => before z y ∧ clash y z = true) (firstFit clash xs) := by
  have fold : ∀ groups : List (List ι),
      Led (fun z y => before z y ∧ clash y z = true) groups →
      (∀ group ∈ groups, ∀ z ∈ group, ∀ y ∈ xs, before z y) →
      Led (fun z y => before z y ∧ clash y z = true)
        (xs.foldl (fun groups x => placeFirstFit clash x groups) groups) := by
    induction xs with
    | nil => exact fun _ h _ => h
    | cons x xs ih =>
      obtain ⟨hx, hrest⟩ := List.pairwise_cons.1 hxs
      intro groups hled hseen
      refine ih hrest _ (placeFirstFit_led (fun group hgroup z hz hclash =>
        ⟨hseen group hgroup z hz x List.mem_cons_self, hclash⟩) hled) ?_
      intro group hgroup z hz y hy
      rcases exists_mem_of_placeFirstFit hgroup hz with rfl | ⟨older, holder, hz⟩
      · exact hx y hy
      · exact hseen older holder z hz y (List.mem_cons_of_mem x hy)
  exact fold [] List.Pairwise.nil nofun

end

/-! ## Tables of occupied rows -/

namespace Pattern
variable {height width : Nat}

/-- Are all rows of column `j` free in the table? -/
def fits (p : Pattern height width) (j : Fin width) (taken : Vector Bool height) : Bool :=
  p.rows[j].all fun i => !taken[i]

/-- The table with the rows of column `j` taken as well. -/
def occupy (p : Pattern height width) (j : Fin width) (taken : Vector Bool height) :
    Vector Bool height :=
  p.rows[j].foldl (fun taken i => taken.set i.val true i.isLt) taken

/-- The table holds exactly the rows of the group's columns. -/
def Tabulates (p : Pattern height width) (group : List (Fin width)) (taken : Vector Bool height) :
    Prop :=
  ∀ i : Fin height, taken[i] = true ↔ ∃ j ∈ group, i ∈ p.rows[j]

variable {p : Pattern height width} {j : Fin width} {group : List (Fin width)}
  {taken : Vector Bool height}

theorem clash_eq_true {k : Fin width} :
    p.clash j k = true ↔ ∃ i ∈ p.rows[j], i ∈ p.rows[k] := by
  simp [clash, List.any_eq_true]

theorem occupy_entry (p : Pattern height width) (j : Fin width) (taken : Vector Bool height)
    (i : Fin height) : (p.occupy j taken)[i] = true ↔ taken[i] = true ∨ i ∈ p.rows[j] := by
  have fold : ∀ (rows : List (Fin height)) (taken : Vector Bool height),
      (rows.foldl (fun taken (i : Fin height) => taken.set i.val true i.isLt) taken)[i] = true ↔
        taken[i] = true ∨ i ∈ rows := by
    intro rows
    induction rows with
    | nil => simp
    | cons row rows ih =>
      intro taken
      rw [List.foldl_cons, ih]
      by_cases hrow : row = i
      · subst hrow
        simp
      · have hval : row.val ≠ i.val := fun h => hrow (Fin.ext h)
        simp [hval, Ne.symm hrow]
  exact fold _ taken

theorem tabulates_new (p : Pattern height width) (j : Fin width) :
    p.Tabulates [j] (p.occupy j (Vector.replicate height false)) := fun i => by
  rw [occupy_entry]
  simp

theorem Tabulates.occupy (h : p.Tabulates group taken) (j : Fin width) :
    p.Tabulates (group ++ [j]) (p.occupy j taken) := fun i => by
  rw [occupy_entry, h i]
  simp only [List.mem_append, List.mem_singleton]
  constructor
  · rintro (⟨k, hk, hi⟩ | hi)
    · exact ⟨k, .inl hk, hi⟩
    · exact ⟨j, .inr rfl, hi⟩
  · rintro ⟨k, hk | rfl, hi⟩
    · exact .inl ⟨k, hk, hi⟩
    · exact .inr hi

/-- The rows of a column are free exactly where it clashes with no column of the group. -/
theorem Tabulates.fits_eq (h : p.Tabulates group taken) (j : Fin width) :
    p.fits j taken = !group.any (p.clash j) := by
  rw [Bool.eq_iff_iff, Bool.not_eq_true', fits, List.all_eq_true, List.any_eq_false]
  constructor
  · intro hfree k hk hclash
    obtain ⟨i, hij, hik⟩ := clash_eq_true.1 hclash
    have htaken : taken[i] = true := (h i).2 ⟨k, hk, hik⟩
    simpa [htaken] using hfree i hij
  · intro hnone i hij
    have hfree : ¬taken[i] = true := fun htaken =>
      have ⟨k, hk, hik⟩ := (h i).1 htaken
      hnone k hk (clash_eq_true.2 ⟨i, hij, hik⟩)
    simpa using hfree

end Pattern

/-- Groups of columns, with the table of the rows that each takes up. -/
structure Grouping (height width : Nat) where
  groups : List (List (Fin width))
  occupied : List (Vector Bool height)

namespace Grouping
variable {height width : Nat}

/-- Puts column `j` into the first group whose table has its rows free, or into a new one. -/
def place (p : Pattern height width) (g : Grouping height width) (j : Fin width) :
    Grouping height width :=
  match g.occupied.findIdx? (p.fits j) with
  | some k => ⟨g.groups.modify k (· ++ [j]), g.occupied.modify k (p.occupy j)⟩
  | none => ⟨g.groups ++ [[j]], g.occupied ++ [p.occupy j (Vector.replicate height false)]⟩

/-- Each table holds the rows of the group it stands beside. -/
def Sound (p : Pattern height width) (g : Grouping height width) : Prop :=
  List.Forall₂ p.Tabulates g.groups g.occupied

/-- The column goes where first fit puts it, and the tables stay right. -/
theorem Sound.place {p : Pattern height width} {g : Grouping height width} (h : g.Sound p)
    (j : Fin width) :
    (g.place p j).groups = placeFirstFit p.clash j g.groups ∧ (g.place p j).Sound p := by
  obtain ⟨groups, occupied⟩ := g
  unfold Sound at h
  dsimp only at h
  induction h with
  | nil =>
    exact ⟨rfl, .cons (p.tabulates_new j) .nil⟩
  | @cons group taken groups occupied htable hrest ih =>
    unfold Grouping.place Sound at ih ⊢
    dsimp only at ih ⊢
    rw [List.findIdx?_cons, htable.fits_eq j]
    cases hany : group.any (p.clash j) with
    | false =>
      refine ⟨?_, .cons (htable.occupy j) hrest⟩
      simp [placeFirstFit, hany]
    | true =>
      -- the column passes over this group and its table, whatever happens behind them
      simp only [Bool.not_true, Bool.false_eq_true, ↓reduceIte]
      cases hslot : occupied.findIdx? (p.fits j) with
      | none =>
        rw [hslot] at ih
        refine ⟨?_, .cons htable ih.2⟩
        simp only [placeFirstFit, hany, ↓reduceIte, ← ih.1]
        rfl
      | some k =>
        rw [hslot] at ih
        refine ⟨?_, .cons htable ih.2⟩
        simp only [placeFirstFit, hany, ↓reduceIte, ← ih.1]
        rfl

end Grouping

namespace Pattern
variable {height width : Nat}

/-- The groups of the columns, found with tables of occupied rows. -/
def groupsByTables (p : Pattern height width) : List (List (Fin width)) :=
  ((List.finRange width).foldl (Grouping.place p) ⟨[], []⟩).groups

theorem groupsByTables_eq (p : Pattern height width) : p.groupsByTables = p.groups := by
  have fold : ∀ (columns : List (Fin width)) (g : Grouping height width), g.Sound p →
      (columns.foldl (Grouping.place p) g).groups =
        columns.foldl (fun groups j => placeFirstFit p.clash j groups) g.groups := by
    intro columns
    induction columns with
    | nil => exact fun _ _ => rfl
    | cons j columns ih =>
      intro g hg
      obtain ⟨hgroups, hsound⟩ := hg.place j
      rw [List.foldl_cons, List.foldl_cons, ih _ hsound, hgroups]
  exact fold _ ⟨[], []⟩ List.Forall₂.nil

/-! ## Rows of the cells -/

/-- A pattern is made when all cells lie inside, and then each column has the rows of its cells. -/
theorem ofCells?_eq_some {cells : List (Nat × Nat)} {p : Pattern height width} :
    ofCells? height width cells = some p ↔
      (∀ cell ∈ cells, cell.1 < height ∧ cell.2 < width) ∧
        ∀ j : Fin width,
          p.rows[j] = (List.finRange height).filter fun i => cells.contains (i.val, j.val) := by
  unfold ofCells?
  rw [Option.ite_none_right_eq_some, List.all_eq_true]
  refine and_congr ?_ ?_
  · exact forall₂_congr fun cell _ => decide_eq_true_iff
  · obtain ⟨rows⟩ := p
    rw [Option.some.injEq, Pattern.mk.injEq]
    constructor
    · rintro rfl j
      simp
    · intro h
      refine Vector.ext fun j hj => ?_
      rw [Vector.getElem_ofFn]
      exact (h ⟨j, hj⟩).symm

/-! ## The partition -/

/-- Groups of columns as first fit leaves them: every column is in one group, the columns of a group
are in order and share no row, and a column is in no earlier group since it shares a row with an
earlier column there. -/
structure FirstFitPartition (p : Pattern height width) (groups : List (List (Fin width))) :
    Prop where
  once : ∀ j : Fin width, ∃! k : Fin groups.length, j ∈ groups[k]
  increasing : ∀ group ∈ groups, group.Pairwise (· < ·)
  apart : ∀ group ∈ groups, group.Pairwise p.Apart
  led : ∀ k' k : Fin groups.length, k' < k → ∀ j ∈ groups[k],
    ∃ i ∈ groups[k'], i < j ∧ ∃ row, row ∈ p.rows[i] ∧ row ∈ p.rows[j]

theorem groups_once (p : Pattern height width) (j : Fin width) :
    ∃! k : Fin p.groups.length, j ∈ p.groups[k] := by
  have hperm : p.groups.flatten.Perm (List.finRange width) := firstFit_perm p.clash _
  obtain ⟨group, hgroup, hj⟩ :=
    List.mem_flatten.1 (hperm.mem_iff.2 (List.mem_finRange j))
  obtain ⟨k, hk, rfl⟩ := List.getElem_of_mem hgroup
  have hdisjoint : p.groups.Pairwise List.Disjoint :=
    (List.nodup_flatten.1 (hperm.nodup_iff.2 (List.nodup_finRange width))).2
  refine ⟨⟨k, hk⟩, hj, fun k' hj' => ?_⟩
  -- in two different groups the column would stand twice in all of them together
  rcases lt_trichotomy k'.val k with hlt | heq | hgt
  · exact absurd hj (List.pairwise_iff_getElem.1 hdisjoint k' k k'.isLt hk hlt hj')
  · exact Fin.ext heq
  · exact absurd hj' (List.pairwise_iff_getElem.1 hdisjoint k k' hk k'.isLt hgt hj)

theorem groups_led (p : Pattern height width) (k' k : Fin p.groups.length) (hk : k' < k)
    (j : Fin width) (hj : j ∈ p.groups[k]) :
    ∃ i ∈ p.groups[k'], i < j ∧ ∃ row, row ∈ p.rows[i] ∧ row ∈ p.rows[j] := by
  have hled := firstFit_led p.clash (List.finRange width) (List.pairwise_lt_finRange width)
  obtain ⟨i, hi, hlt, hclash⟩ :=
    List.pairwise_iff_getElem.1 hled k' k k'.isLt k.isLt hk j hj
  obtain ⟨row, hrow, hrow'⟩ := clash_eq_true.1 hclash
  exact ⟨i, hi, hlt, row, hrow', hrow⟩

/-- The columns of any pattern are grouped by first fit, with or without tables of occupied rows,
and the rows of a column are those that the given cells list for it, in order. -/
theorem groups_partition (p : Pattern height width) :
    p.FirstFitPartition p.groups ∧ p.groupsByTables = p.groups ∧
      ∀ cells : List (Nat × Nat), ofCells? height width cells = some p →
        ∀ j : Fin width, p.rows[j].Pairwise (· < ·) ∧
          ∀ i : Fin height, i ∈ p.rows[j] ↔ (i.val, j.val) ∈ cells := by
  refine ⟨⟨p.groups_once, fun group hgroup => ?_, fun group hgroup => ?_, p.groups_led⟩,
    p.groupsByTables_eq, fun cells hcells j => ?_⟩
  · exact (List.pairwise_lt_finRange width).sublist (firstFit_sublist p.clash _ group hgroup)
  · exact firstFit_pairwise (fun _ _ => apart_of_clash) _ group hgroup
  · rw [(ofCells?_eq_some.1 hcells).2 j]
    refine ⟨(List.pairwise_lt_finRange height).sublist List.filter_sublist, fun i => ?_⟩
    rw [List.mem_filter, List.contains_iff_mem]
    exact and_iff_right (List.mem_finRange i)

/-- The third column is empty; row `1` keeps the others apart. -/
theorem groups_partition_sharing :
    let cells : List (Nat × Nat) := [(1, 0), (0, 0), (1, 1), (0, 3), (1, 0), (1, 3)]
    let p : Pattern 2 4 := ⟨#v[[0, 1], [1], [], [0, 1]]⟩
    ofCells? 2 4 cells = some p ∧ p.groups = [[0, 2], [1], [3]] ∧ p.FirstFitPartition p.groups ∧
      ∀ i : Fin 2, i ∈ p.rows[(0 : Fin 4)] ↔ (i.val, 0) ∈ cells := by
  intro cells p
  have hcells : ofCells? 2 4 cells = some p := by rfl
  obtain ⟨hpartition, -, hrows⟩ := groups_partition p
  exact ⟨hcells, by decide, hpartition, (hrows cells hcells 0).2⟩

end Pattern

end AlgebraicLoop
