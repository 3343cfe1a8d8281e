import Esdm.Proofs.Accounting
import Esdm.Proofs.Geometry

/-!
# Grids that are nested

The leaf cells of a grid are the cells without a subgrid, of the grid itself and of all grids nested
in it.  If the bounds of all axes increase and each subgrid fills the cell that holds it, the leaf
cells partition the domain (`exists_leaf`, `Hierarchy.leaf_unique`), and the search for the cell of
a memspace finds the leaf cell with its extents (`findCellInHierarchy_exact`).
-/

namespace Esdm

namespace Grid

variable {heap : List Grid} {dims g i : ℕ} {grid : Grid} {axes : List Axis} {index : List ℤ}
  {cube cube' : Hypercube} {p : List ℤ} {c c' : ℕ × ℕ}

section Place

/-- The cell at a place of the array. -/
def CellAt (axes : List Axis) (i : ℕ) (cube : Hypercube) : Prop :=
  ∃ index, IsCell axes index cube ∧ linearIndexFrom 0 axes index = i

theorem IsCell.linearIndexFrom_eq (h : IsCell axes index cube) :
    linearIndexFrom 0 axes index = Radix.value (sizes axes) index := by
  obtain ⟨-, h'⟩ | ⟨hn, -⟩ := Grid.linearIndexFrom_eq 0 h.length.1
  · rw [h']
    ring
  · exact absurd h.digits hn

/-- The place of a cell determines it. -/
theorem IsCell.index_eq {index' : List ℤ} (h : IsCell axes index cube)
    (h' : IsCell axes index' cube')
    (hi : linearIndexFrom 0 axes index = linearIndexFrom 0 axes index') :
    index = index' := by
  rw [h.linearIndexFrom_eq, h'.linearIndexFrom_eq] at hi
  exact Radix.value_inj h.digits h'.digits hi

theorem CellAt.eq (h : CellAt axes i cube) (h' : CellAt axes i cube') : cube = cube' := by
  obtain ⟨index, hc, hi⟩ := h
  obtain ⟨index', hc', hi'⟩ := h'
  obtain rfl := hc.index_eq hc' (hi.trans hi'.symm)
  exact hc.eq hc'

theorem CellAt.lt (h : CellAt axes i cube) : (i : ℤ) < (sizes axes).prod := by
  obtain ⟨index, hc, hi⟩ := h
  rw [← hi, hc.linearIndexFrom_eq]
  exact (Radix.value_bounds hc.digits).2

variable (hp : ∀ axis ∈ axes, Axis.Proper axis)

include hp

theorem exists_cellAt (hi : (i : ℤ) < (sizes axes).prod) : ∃ cube, CellAt axes i cube := by
  have hpos : ∀ n ∈ sizes axes, 0 < n := by
    intro n hn
    obtain ⟨axis, ha, rfl⟩ := List.mem_map.1 hn
    exact (hp axis ha).intervals
  obtain ⟨index, hd, hv⟩ := Radix.exists_digits hpos (Int.natCast_nonneg i) hi
  obtain ⟨cube, hc⟩ := exists_isCell hp hd
  exact ⟨cube, index, hc, hc.linearIndexFrom_eq.trans hv⟩

theorem exists_mem_cellAt (h : p ∈ Hypercube.points (box axes)) :
    ∃ i cube, CellAt axes i cube ∧ p ∈ Hypercube.points cube := by
  obtain ⟨index, cube, hc, hpc⟩ := exists_mem_cell hp h
  obtain ⟨i, hi⟩ := Int.eq_ofNat_of_zero_le (Radix.value_bounds hc.digits).1
  exact ⟨i, cube, ⟨index, hc, hc.linearIndexFrom_eq.trans hi⟩, hpc⟩

theorem CellAt.within (h : CellAt axes i cube) :
    Hypercube.Within cube (box axes) ∧ ¬ Hypercube.isEmpty cube := by
  obtain ⟨index, hc, -⟩ := h
  exact hc.within hp

theorem CellAt.place_unique {j : ℕ} (h : CellAt axes i cube) (h' : CellAt axes j cube')
    (hc : p ∈ Hypercube.points cube) (hc' : p ∈ Hypercube.points cube') : i = j := by
  obtain ⟨index, hcell, hi⟩ := h
  obtain ⟨index', hcell', hj⟩ := h'
  obtain rfl := hcell.index_unique hp hcell' hc hc'
  omega

end Place

section Leaf

def subgridAt (grid : Grid) (i : ℕ) : Option ℕ :=
  (grid.cells.bind fun cs => cs[i]?).bind GridEntry.subgrid

def fragmentAt (grid : Grid) (i : ℕ) : Option ℕ :=
  (grid.cells.bind fun cs => cs[i]?).bind GridEntry.fragment

theorem subgridAt_eq_some {h : ℕ} : grid.subgridAt i = some h ↔
    ∃ cs e, grid.cells = some cs ∧ cs[i]? = some e ∧ e.subgrid = some h := by
  unfold subgridAt
  simp only [Option.bind_eq_some_iff]
  exact ⟨fun ⟨e, ⟨cs, hcs, hi⟩, he⟩ => ⟨cs, e, hcs, hi, he⟩,
    fun ⟨cs, e, hcs, hi, he⟩ => ⟨e, ⟨cs, hcs, hi⟩, he⟩⟩

theorem mem_subgrids_of_subgridAt {h : ℕ} (hs : grid.subgridAt i = some h) : h ∈ grid.subgrids := by
  obtain ⟨cs, e, hcs, hi, he⟩ := subgridAt_eq_some.1 hs
  exact mem_subgrids.2 ⟨cs, hcs, e, List.mem_of_getElem? hi, he⟩

theorem exists_subgridAt_of_mem {h : ℕ} (hm : h ∈ grid.subgrids) :
    ∃ i, grid.subgridAt i = some h := by
  obtain ⟨cs, hcs, e, he, hs⟩ := mem_subgrids.1 hm
  obtain ⟨i, hi⟩ := List.mem_iff_getElem?.1 he
  exact ⟨i, subgridAt_eq_some.2 ⟨cs, e, hcs, hi, hs⟩⟩

/-- A cell without a subgrid, of the grid or of one that is nested in it. -/
inductive Leaf (heap : List Grid) : ℕ → ℕ × ℕ → Prop
  | cell {g i : ℕ} {grid : Grid} : heap[g]? = some grid → (i : ℤ) < grid.cellCount →
    grid.subgridAt i = none → Leaf heap g (g, i)
  | sub {g i h : ℕ} {grid : Grid} {c : ℕ × ℕ} : heap[g]? = some grid →
    grid.subgridAt i = some h → Leaf heap h c → Leaf heap g c

theorem Leaf.reaches (h : Leaf heap g c) :
    Relation.ReflTransGen (Subgrid heap) g c.1 := by
  induction h with
  | cell => exact .refl
  | sub hg hs _ ih => exact .head ⟨_, hg, mem_subgrids_of_subgridAt hs⟩ ih

/-- The leaf cells in one of the grid's cells. -/
def LeafIn (heap : List Grid) (g : ℕ) (grid : Grid) (i : ℕ) (c : ℕ × ℕ) : Prop :=
  (grid.subgridAt i = none ∧ c = (g, i)) ∨ ∃ h, grid.subgridAt i = some h ∧ Leaf heap h c

/-- The cell is a hypercube. -/
def Extent (heap : List Grid) (c : ℕ × ℕ) (cube : Hypercube) : Prop :=
  ∃ grid, heap[c.1]? = some grid ∧ CellAt grid.axes c.2 cube

/-- What holds of each grid of a hierarchy: its bounds increase, and its subgrids fill their
cells. -/
structure Level (heap : List Grid) (dims g : ℕ) (grid : Grid) : Prop where
  rank : grid.axes.length = dims
  proper : ∀ axis ∈ grid.axes, Axis.Proper axis
  length : ∀ cs, grid.cells = some cs → (cs.length : ℤ) = grid.cellCount
  exclusive : ∀ i h, grid.subgridAt i = some h → grid.fragmentAt i = none
  child : ∀ i h, grid.subgridAt i = some h → g < h ∧ ∃ sub, heap[h]? = some sub
    ∧ CellAt grid.axes i (box sub.axes)

/-- A grid and all grids nested in it. -/
inductive Hierarchy (heap : List Grid) (dims : ℕ) : ℕ → Prop
  | intro {g : ℕ} {grid : Grid} : heap[g]? = some grid → Level heap dims g grid →
    (∀ i h, grid.subgridAt i = some h → Hierarchy heap dims h) → Hierarchy heap dims g

theorem Hierarchy.level (h : Hierarchy heap dims g) (hg : heap[g]? = some grid) :
    Level heap dims g grid ∧ ∀ i h, grid.subgridAt i = some h → Hierarchy heap dims h := by
  cases h with
  | intro hg' hl hsub =>
    obtain rfl := Option.some.inj (hg'.symm.trans hg)
    exact ⟨hl, hsub⟩

theorem Extent.eq (h : Extent heap c cube) (h' : Extent heap c cube') : cube = cube' := by
  obtain ⟨grid, hg, hc⟩ := h
  obtain ⟨grid', hg', hc'⟩ := h'
  obtain rfl := Option.some.inj (hg.symm.trans hg')
  exact hc.eq hc'

theorem leaf_iff (hl : Level heap dims g grid) (hg : heap[g]? = some grid) :
    Leaf heap g c ↔ ∃ i : ℕ, (i : ℤ) < grid.cellCount ∧ LeafIn heap g grid i c := by
  constructor
  · intro h
    cases h with
    | cell hg' hi hn =>
      obtain rfl := Option.some.inj (hg'.symm.trans hg)
      exact ⟨_, hi, .inl ⟨hn, rfl⟩⟩
    | sub hg' hs hleaf =>
      obtain rfl := Option.some.inj (hg'.symm.trans hg)
      obtain ⟨-, sub, -, hcell⟩ := hl.child _ _ hs
      exact ⟨_, hcell.lt, .inr ⟨_, hs, hleaf⟩⟩
  · rintro ⟨i, hi, ⟨hn, rfl⟩ | ⟨h, hs, hleaf⟩⟩
    · exact .cell hg hi hn
    · exact .sub hg hs hleaf

/-- A leaf cell lies in the domain, and has points. -/
theorem Hierarchy.leaf_within (h : Hierarchy heap dims g) (hleaf : Leaf heap g c) :
    ∀ {grid : Grid}, heap[g]? = some grid → ∃ cube, Extent heap c cube
      ∧ Hypercube.Within cube (box grid.axes) ∧ ¬ Hypercube.isEmpty cube := by
  induction hleaf with
  | @cell g i grid' hg' hi _ =>
    intro grid hg
    obtain rfl := Option.some.inj (hg'.symm.trans hg)
    obtain ⟨hl, -⟩ := h.level hg
    obtain ⟨cube, hcube⟩ := exists_cellAt hl.proper hi
    exact ⟨cube, ⟨grid', hg, hcube⟩, hcube.within hl.proper⟩
  | @sub g i k grid' c hg' hs _ ih =>
    intro grid hg
    obtain rfl := Option.some.inj (hg'.symm.trans hg)
    obtain ⟨hl, hsub⟩ := h.level hg
    obtain ⟨-, sub, hk, hcell⟩ := hl.child _ _ hs
    obtain ⟨cube, hcube, hw, hne⟩ := ih (hsub _ _ hs) hk
    exact ⟨cube, hcube, hw.trans (hcell.within hl.proper).1, hne⟩

/-- A leaf cell lies in the cell that it is in. -/
theorem Hierarchy.leafIn_within (h : Hierarchy heap dims g) (hg : heap[g]? = some grid)
    (hleaf : LeafIn heap g grid i c) (hc : Extent heap c cube) :
    ∃ cell, CellAt grid.axes i cell ∧ Hypercube.Within cube cell ∧ ¬ Hypercube.isEmpty cube := by
  obtain ⟨hl, hsub⟩ := h.level hg
  obtain ⟨-, rfl⟩ | ⟨k, hs, hleaf⟩ := hleaf
  · obtain ⟨grid', hg', hcell⟩ := hc
    obtain rfl := Option.some.inj (hg'.symm.trans hg)
    exact ⟨cube, hcell, .refl cube, (hcell.within hl.proper).2⟩
  · obtain ⟨-, sub, hk, hcell⟩ := hl.child _ _ hs
    obtain ⟨cube', hcube', hw, hne⟩ := (hsub _ _ hs).leaf_within hleaf hk
    obtain rfl := hc.eq hcube'
    exact ⟨_, hcell, hw, hne⟩

theorem Hierarchy.leaf_level (h : Hierarchy heap dims g) (hleaf : Leaf heap g c) :
    ∃ grid, heap[c.1]? = some grid ∧ Level heap dims c.1 grid := by
  induction hleaf with
  | @cell g i grid hg _ _ => exact ⟨grid, hg, (h.level hg).1⟩
  | @sub g i k grid c hg hs _ ih => exact ih ((h.level hg).2 _ _ hs)

/-- Different leaf cells are disjoint. -/
theorem Hierarchy.leaf_unique (h : Hierarchy heap dims g) :
    ∀ {c c' : ℕ × ℕ} {cube cube' : Hypercube}
    {p : List ℤ}, Leaf heap g c → Leaf heap g c' → Extent heap c cube → Extent heap c' cube' →
    p ∈ Hypercube.points cube → p ∈ Hypercube.points cube' → c = c' := by
  induction h with
  | @intro g grid hg hl hsub ih =>
    intro c c' cube cube' p hc hc' he he' hp hp'
    have h : Hierarchy heap dims g := .intro hg hl hsub
    obtain ⟨i, -, hi⟩ := (leaf_iff hl hg).1 hc
    obtain ⟨i', -, hi'⟩ := (leaf_iff hl hg).1 hc'
    obtain ⟨cell, hcell, hw, -⟩ := h.leafIn_within hg hi he
    obtain ⟨cell', hcell', hw', -⟩ := h.leafIn_within hg hi' he'
    obtain rfl := hcell.place_unique hl.proper hcell' (hw.points_subset hp) (hw'.points_subset hp')
    obtain ⟨hn, rfl⟩ | ⟨k, hs, hleaf⟩ := hi
    · obtain ⟨-, rfl⟩ | ⟨k, hs, -⟩ := hi'
      · rfl
      · rw [hn] at hs
        cases hs
    · obtain ⟨hn, -⟩ | ⟨k', hs', hleaf'⟩ := hi'
      · rw [hn] at hs
        cases hs
      · obtain rfl := Option.some.inj (hs.symm.trans hs')
        exact ih _ _ hs hleaf hleaf' he he' hp hp'

/-- Different cells have no leaf cell in common. -/
theorem Hierarchy.leafIn_unique {j : ℕ} (h : Hierarchy heap dims g)
    (hg : heap[g]? = some grid) (hi : (i : ℤ) < grid.cellCount) (hc : LeafIn heap g grid i c)
    (hc' : LeafIn heap g grid j c) : i = j := by
  obtain ⟨hl, -⟩ := h.level hg
  obtain ⟨cube, hext, -, hne⟩ := h.leaf_within ((leaf_iff hl hg).2 ⟨i, hi, hc⟩) hg
  obtain ⟨p, hp⟩ := Hypercube.points_nonempty_iff.2 hne
  obtain ⟨cell, hcell, hw, -⟩ := h.leafIn_within hg hc hext
  obtain ⟨cell', hcell', hw', -⟩ := h.leafIn_within hg hc' hext
  exact hcell.place_unique hl.proper hcell' (hw.points_subset hp) (hw'.points_subset hp)

/-- Every point of the domain lies in a leaf cell. -/
theorem Hierarchy.exists_leaf (h : Hierarchy heap dims g) : ∀ {grid : Grid} {p : List ℤ},
    heap[g]? = some grid → p ∈ Hypercube.points (box grid.axes) →
    ∃ c cube, Leaf heap g c ∧ Extent heap c cube ∧ p ∈ Hypercube.points cube := by
  induction h with
  | @intro g grid' hg' hl hsub ih =>
    intro grid p hg hp
    obtain rfl := Option.some.inj (hg'.symm.trans hg)
    obtain ⟨i, cube, hcell, hpc⟩ := exists_mem_cellAt hl.proper hp
    rcases hs : grid'.subgridAt i with _ | k
    · exact ⟨_, cube, .cell hg hcell.lt hs, ⟨grid', hg, hcell⟩, hpc⟩
    · obtain ⟨-, sub, hk, hcell'⟩ := hl.child _ _ hs
      obtain rfl := hcell.eq hcell'
      obtain ⟨c, cube, hleaf, hc, hpc⟩ := ih _ _ hs hk hpc
      exact ⟨c, cube, .sub hg hs hleaf, hc, hpc⟩

/-- The fragment of a cell. -/
def fragmentIn (heap : List Grid) (c : ℕ × ℕ) : Option ℕ :=
  heap[c.1]?.bind fun grid => grid.fragmentAt c.2

/-- All leaf cells have a fragment. -/
def Filled (heap : List Grid) (g : ℕ) : Prop := ∀ c, Leaf heap g c → fragmentIn heap c ≠ none

theorem Filled.sub {h : ℕ} (hf : Filled heap g) (hg : heap[g]? = some grid)
    (hs : grid.subgridAt i = some h) : Filled heap h := fun c hc => hf c (.sub hg hs hc)

/-- The cells of a grid all of whose leaf cells have a fragment. -/
theorem Level.cell_of_filled (hl : Level heap dims g grid) (hg : heap[g]? = some grid)
    (hf : Filled heap g) (hi : (i : ℤ) < grid.cellCount) : ∃ e, grid.cell i = .ok e
      ∧ e.subgrid = grid.subgridAt i ∧ e.fragment = grid.fragmentAt i
      ∧ (grid.subgridAt i = none → ∃ r, grid.fragmentAt i = some r) := by
  have hleaf : grid.subgridAt i = none → ∃ r, grid.fragmentAt i = some r := by
    intro hs
    have := hf (g, i) (.cell hg hi hs)
    rw [fragmentIn, hg] at this
    exact Option.ne_none_iff_exists'.1 this
  rcases hcs : grid.cells with _ | cs
  · obtain ⟨r, hr⟩ := hleaf (by simp [subgridAt, hcs])
    simp [fragmentAt, hcs] at hr
  · have hlen := hl.length cs hcs
    have hget := List.getElem?_eq_getElem (show i < cs.length by omega)
    refine ⟨cs[i], cell_eq_ok.2 ⟨by omega, cs, hcs, hget⟩, ?_, ?_, hleaf⟩
    · simp [subgridAt, hcs, hget]
    · simp [fragmentAt, hcs, hget]

end Leaf

section Find

section Cell

variable {cell : Hypercube} (h : Hierarchy heap dims g) (hg : heap[g]? = some grid)
  (hcell : CellAt grid.axes i cell) (hw : Hypercube.Within cube cell)
  (hne : ¬ Hypercube.isEmpty cube)

include h hg hcell hw hne

/-- A leaf cell that lies in one of the cells is in this cell. -/
theorem Hierarchy.leaf_iff_leafIn :
    Leaf heap g c ∧ Extent heap c cube ↔ LeafIn heap g grid i c ∧ Extent heap c cube := by
  obtain ⟨hl, -⟩ := h.level hg
  refine and_congr_left fun hext =>
    ⟨fun hleaf => ?_, fun hin => (leaf_iff hl hg).2 ⟨i, hcell.lt, hin⟩⟩
  obtain ⟨j, -, hin⟩ := (leaf_iff hl hg).1 hleaf
  obtain ⟨cell', hcell', hw', -⟩ := h.leafIn_within hg hin hext
  obtain ⟨p, hp⟩ := Hypercube.points_nonempty_iff.2 hne
  obtain rfl := hcell.place_unique hl.proper hcell' (hw.points_subset hp) (hw'.points_subset hp)
  exact hin

theorem Hierarchy.leaf_iff_self (hs : grid.subgridAt i = none) :
    Leaf heap g c ∧ Extent heap c cube ↔ c = (g, i) ∧ cell = cube := by
  rw [h.leaf_iff_leafIn hg hcell hw hne]
  constructor
  · rintro ⟨⟨-, rfl⟩ | ⟨k, hk, -⟩, hext⟩
    · exact ⟨rfl, Extent.eq ⟨grid, hg, hcell⟩ hext⟩
    · rw [hs] at hk
      cases hk
  · rintro ⟨rfl, rfl⟩
    exact ⟨.inl ⟨hs, rfl⟩, grid, hg, hcell⟩

theorem Hierarchy.leaf_iff_sub {k : ℕ} (hs : grid.subgridAt i = some k) :
    Leaf heap g c ∧ Extent heap c cube ↔ Leaf heap k c ∧ Extent heap c cube := by
  rw [h.leaf_iff_leafIn hg hcell hw hne]
  refine and_congr_left fun _ => ⟨?_, fun hleaf => .inr ⟨k, hs, hleaf⟩⟩
  rintro (⟨hs', -⟩ | ⟨k', hs', hleaf⟩)
  · rw [hs] at hs'
    cases hs'
  · obtain rfl := Option.some.inj (hs.symm.trans hs')
    exact hleaf

end Cell

/-- What allocating the cells does. -/
theorem Level.ensureGrid (hl : Level heap dims g grid) : ∃ grid', grid.ensureGrid = .ok grid'
    ∧ (grid.cells ≠ none → grid' = grid)
    ∧ ∀ i : ℕ, (i : ℤ) < grid.cellCount → ∃ e, grid'.cell i = .ok e
      ∧ e.subgrid = grid.subgridAt i := by
  unfold Grid.ensureGrid subgridAt
  rcases hcs : grid.cells with _ | cs
  · have hpos : ¬ grid.cellCount < 0 := by
      have := List.prod_pos (s := sizes grid.axes) fun n hn => by
        obtain ⟨axis, ha, rfl⟩ := List.mem_map.1 hn
        exact (hl.proper axis ha).intervals
      exact not_lt.2 this.le
    refine ⟨_, if_neg hpos, fun h => absurd rfl h, fun i hi => ⟨⟨none, none⟩, ?_, rfl⟩⟩
    refine cell_eq_ok.2 ⟨by omega, _, rfl, ?_⟩
    rw [List.getElem?_replicate, if_pos (by omega)]
  · refine ⟨grid, rfl, fun _ => rfl, fun i hi => ?_⟩
    have hlen := hl.length cs hcs
    have hget := List.getElem?_eq_getElem (show i < cs.length by omega)
    refine ⟨cs[i], cell_eq_ok.2 ⟨by omega, cs, hcs, hget⟩, ?_⟩
    simp [hget]

end Find

section Reached

variable {table : List (Hypercube × ℕ)}

/-- The grids of a dataset are hierarchies, where their axes enclose something. -/
theorem Geometry.hierarchy (hG : Geometry table heap) (hF : Forest dims none heap) :
    ∀ (n g : ℕ) {grid : Grid}, heap.length - g ≤ n → heap[g]? = some grid →
      Nested (fun sub => ∀ axis ∈ sub.axes, Axis.Proper axis) heap g → Hierarchy heap dims g
  | 0, g, grid, hn, hg, _ => by
    have := (List.getElem?_eq_some_iff.1 hg).1
    omega
  | n + 1, g, grid, hn, hg, hp => by
    obtain ⟨hproper, hps⟩ := (nested_iff hg).1 hp
    have hnode := hF.node hg
    refine .intro hg ⟨hnode.axes, hproper, hnode.length, fun i h hs => ?_, fun i h hs => ?_⟩
      fun i h hs => ?_
    · obtain ⟨cs, e, hcs, hi, hes⟩ := subgridAt_eq_some.1 hs
      have hx := hnode.exclusive cs hcs e (List.mem_of_getElem? hi)
      simp only [hes, reduceCtorEq, false_or] at hx
      simp [fragmentAt, hcs, hi, hx]
    · obtain ⟨cs, e, hcs, hi, hes⟩ := subgridAt_eq_some.1 hs
      obtain ⟨hlt, sub, hsub, -⟩ := hF.child hg (mem_subgrids_of_subgridAt hs)
      obtain ⟨index, hidx, hch⟩ := (hG.cells g grid cs i e hg hcs hi).child h sub hes hsub
      have hpsub := ((nested_iff hsub).1 (hps h (mem_subgrids_of_subgridAt hs))).1
      exact ⟨hlt, sub, hsub, index, (hch.proper (hG.axes g grid hg) hpsub).2, hidx⟩
    · obtain ⟨hlt, sub, hsub, -⟩ := hF.child hg (mem_subgrids_of_subgridAt hs)
      exact hG.hierarchy hF n h (by omega) hsub (hps h (mem_subgrids_of_subgridAt hs))

/-- A grid that is done encloses something. -/
theorem Geometry.proper_of_done (hG : Geometry table heap) (hF : Forest dims none heap) :
    ∀ (n g : ℕ) {grid : Grid}, heap.length - g ≤ n → heap[g]? = some grid → grid.done = true →
      ∀ axis ∈ grid.axes, Axis.Proper axis
  | 0, g, grid, hn, hg, _ => by
    have := (List.getElem?_eq_some_iff.1 hg).1
    omega
  | n + 1, g, grid, hn, hg, hd => by
    obtain ⟨cs, hcs, hne, hall⟩ := hF.cellDone_of_done hg hd
    obtain ⟨c, hc⟩ := List.exists_mem_of_ne_nil cs hne
    obtain ⟨i, hi⟩ := List.mem_iff_getElem?.1 hc
    have hcell := hG.cells g grid cs i c hg hcs hi
    obtain ⟨r, hr⟩ | ⟨-, h, sub, hs, hlt, hsub, hdsub⟩ := hF.cellDone_cases hg hcs hc (hall c hc)
    · exact (hcell.fragment r hr).1
    · have hp := hG.proper_of_done hF n h (by omega) hsub hdsub
      obtain ⟨index, -, hch⟩ := hcell.child h sub hs hsub
      exact (hch.proper (hG.axes g grid hg) hp).1

theorem Geometry.hierarchy_of_done (hG : Geometry table heap) (hF : Forest dims none heap)
    (hg : heap[g]? = some grid) (hd : grid.done = true) : Hierarchy heap dims g :=
  hG.hierarchy hF heap.length g (Nat.sub_le _ g) hg fun h sub hreach hsub =>
    hG.proper_of_done hF heap.length h (Nat.sub_le _ h) hsub
      (hF.nested_done heap.length g (Nat.sub_le _ g) hg hd h sub hreach hsub)

theorem Forest.filled (hF : Forest dims none heap) (h : LeavesFilled heap g) : Filled heap g := by
  intro c hleaf
  induction hleaf with
  | @cell g i grid hg hi hn =>
    obtain ⟨⟨cs, hcs, hfill⟩, -⟩ := (nested_iff hg).1 h
    have hlen := (hF.node hg).length cs hcs
    have hget := List.getElem?_eq_getElem (show i < cs.length by omega)
    have hsub : cs[i].subgrid = none := by simpa [subgridAt, hcs, hget] using hn
    simpa [fragmentIn, fragmentAt, hg, hcs, hget] using hfill _ (List.getElem_mem _) hsub
  | @sub g i k grid c hg hs _ ih =>
    exact ih (((nested_iff hg).1 h).2 k (mem_subgrids_of_subgridAt hs))

end Reached

end Grid

namespace Dataset

open Grid

variable {V : Type} {ds : Dataset V} {space : Dataspace}

theorem setGrid_self {g : ℕ} {grid : Grid} (hg : ds.gridHeap[g]? = some grid) :
    ds.setGrid g grid = ds := by
  obtain ⟨hi, rfl⟩ := List.getElem?_eq_some_iff.1 hg
  unfold setGrid
  rw [List.set_getElem_self hi]

theorem findCellInHierarchy_spec (ds : Dataset V) : ∀ (depth : ℕ) {g : ℕ},
    ds.gridHeap.length - g ≤ depth → Hierarchy ds.gridHeap space.dims g →
    ∃ (ds' : Dataset V) (found : Option (ℕ × ℕ)), findCellInHierarchy space depth g ds
        = .ok (ds', found.map fun c => (c.1, (c.2 : ℤ)))
      ∧ (∀ c, found = some c ↔ Leaf ds.gridHeap g c ∧ Extent ds.gridHeap c space.getExtends)
      ∧ (found = none → ds' = ds)
  | 0, g, hn, h => by
    cases h with
    | intro hg =>
      have := (List.getElem?_eq_some_iff.1 hg).1
      omega
  | depth + 1, g, hn, h => by
    cases h with
    | @intro _ grid hg hl hsub =>
      have h : Hierarchy ds.gridHeap space.dims g := .intro hg hl hsub
      have hcube : cubeOf space.dim = space.getExtends := rfl
      rw [findCellInHierarchy, grid_eq_ok.2 hg, Outcome.ok_bind]
      obtain ⟨index, cube, hf, hcell, hw, hne⟩ | ⟨⟨small, hf⟩, hno⟩ :=
        findCell_spec false hl.proper (show space.dim.length = _ from hl.rank.symm)
      · rw [hf, Outcome.ok_bind]
        dsimp only
        obtain ⟨n, hi⟩ : ∃ n : ℕ, grid.linearIndex index = n :=
          Int.eq_ofNat_of_zero_le (by
            rw [Grid.linearIndex, hcell.linearIndexFrom_eq]
            exact (Radix.value_bounds hcell.digits).1)
        have hat : CellAt grid.axes n cube := ⟨index, hcell, hi⟩
        rw [hcube] at hw hne
        rw [hi, eassert_of (Int.natCast_nonneg n), Outcome.ok_bind, Bool.false_or, hcube]
        by_cases hsmall : grid.cells = none ∧ decide (cube ≠ space.getExtends) = true
        · rw [if_pos hsmall]
          refine ⟨ds, none, rfl, fun c => ?_, fun _ => rfl⟩
          have hs : grid.subgridAt n = none := by simp [subgridAt, hsmall.1]
          rw [h.leaf_iff_self hg hat hw hne hs]
          simpa using fun _ => of_decide_eq_true hsmall.2
        rw [if_neg hsmall]
        obtain ⟨grid', hensure, hsame, hget⟩ := hl.ensureGrid
        obtain ⟨e, he, hes⟩ := hget n hat.lt
        rw [hensure, Outcome.ok_bind, he, Outcome.ok_bind, hes]
        rcases hs : grid.subgridAt n with _ | k
        · dsimp only
          by_cases heq : cube = space.getExtends
          · rw [if_neg (by simpa using heq)]
            refine ⟨_, some (g, n), rfl, fun c => ?_, fun h => by cases h⟩
            rw [h.leaf_iff_self hg hat hw hne hs]
            simpa [heq] using eq_comm
          · rw [if_pos (by simpa using heq)]
            have hcells : grid.cells ≠ none := fun hcs => hsmall ⟨hcs, by simpa using heq⟩
            rw [hsame hcells, setGrid_self hg]
            refine ⟨ds, none, rfl, fun c => ?_, fun _ => rfl⟩
            rw [h.leaf_iff_self hg hat hw hne hs]
            simpa using fun _ => heq
        · dsimp only
          have hcells : grid.cells ≠ none := fun hcs => by simp [subgridAt, hcs] at hs
          obtain ⟨hlt, -⟩ := hl.child n k hs
          obtain ⟨ds', found, hfind, hfound, hds⟩ :=
            findCellInHierarchy_spec ds depth (by omega) (hsub n k hs)
          rw [hsame hcells, setGrid_self hg]
          exact ⟨ds', found, hfind, fun c => by rw [hfound, h.leaf_iff_sub hg hat hw hne hs], hds⟩
      · rw [hf, Outcome.ok_bind]
        refine ⟨ds, none, rfl, fun c => ?_, fun _ => rfl⟩
        simp only [reduceCtorEq, false_iff, not_and]
        intro hleaf hext
        obtain ⟨i, -, hin⟩ := (leaf_iff hl hg).1 hleaf
        obtain ⟨cell, ⟨index, hcell, -⟩, hw, hne⟩ := h.leafIn_within hg hin hext
        exact hne (hno index cell hcell hw)

/-- The search returns the one leaf cell that has the memspace's extents; if there is none, writing
and reading fail, and no grid is changed. -/
def FindsLeaf (ds : Dataset V) (g : ℕ) (space : Dataspace) : Prop :=
  ∃ (ds' : Dataset V) (found : Option (ℕ × ℕ)),
    findCellInHierarchy space ds.gridHeap.length g ds
      = .ok (ds', found.map fun c => (c.1, (c.2 : ℤ)))
    ∧ (∀ c, found = some c ↔ Leaf ds.gridHeap g c ∧ Extent ds.gridHeap c space.getExtends)
    ∧ (found = none → ds' = ds ∧ ∀ env user,
      ds.writeGrid env g user space = .ok (.invalidArgumentError, ds)
        ∧ ds.readGrid env g user space = .ok (.invalidArgumentError, user, ds))

theorem hierarchy_pairGrids {ds : Dataset ℕ} {calls : List (Call ℕ)} {top sub : ℤ} {r : Option ℕ}
    (h : (init pairSpace none).run calls = .ok ds) (heap : ds.gridHeap = pairGrids top sub r)
    (hd : ds.dims = 1) : Hierarchy ds.gridHeap 1 0 := by
  obtain ⟨hI, hG⟩ := run_geometry h
  rw [← hd]
  refine hG.hierarchy hI.grids.forest ds.gridHeap.length 0 (Nat.sub_le _ 0)
    (by rw [heap]; rfl) (nested_of_forall fun grid hgrid axis ha => ?_)
  rw [heap] at hgrid
  rcases List.mem_pair.1 hgrid with rfl | rfl
  · obtain rfl := List.mem_singleton.1 ha
    exact ⟨by decide, rfl, rfl, rfl, by decide⟩
  · obtain rfl := List.mem_singleton.1 ha
    exact ⟨by decide, rfl, rfl, rfl, by decide⟩

end Dataset

end Esdm
