import Esdm.Proofs.GridState
import Esdm.Proofs.Io
import Esdm.System

/-!
# What a call can do

Each call of the API is a sequence of small steps (`step_steps`): the steps of reads and writes, and
those that create, subdivide, allocate, name and fill grids.  An invariant of the system is one that
each of these keeps.
-/

namespace Esdm

variable {V : Type}

/-- A new grid, without cells. -/
def Grid.fresh (parent : Option ℕ) (dim : List Dim) : Grid where
  parent := parent
  id := none
  emptyCells := 0
  cells := none
  axes := dim.map fun d => Axis.make d.offset d.size

namespace Dataset

variable {ds ds' : Dataset V} {g : ℕ} {grid : Grid} {env : Env V} {user user' : Mem V}
  {space : Dataspace} {S : Axis → Axis → Prop} {P : Dataspace → Prop}

/-- One change to the grids.  `P` says which spaces' cells are filled, and `S` how axes are
subdivided. -/
inductive GridStep (P : Dataspace → Prop) (S : Axis → Axis → Prop) : Dataset V → Dataset V → Prop
  | create {ds : Dataset V} {dim : List Dim} (hd : ds.dims = dim.length) (hpos : 0 < dim.length) :
      GridStep P S ds (registerGrid { ds with gridHeap := ds.gridHeap ++ [.fresh none dim] }
        ds.gridHeap.length)
  | subgrid {ds : Dataset V} {g : ℕ} {grid : Grid} {cs : List GridEntry} {index : List ℤ} {i : ℕ}
      {dim : List Dim} (hg : ds.gridHeap[g]? = some grid) (hcs : grid.cells = some cs)
      (hi : grid.linearIndex index = i) (hl : index.length = ds.dims)
      (hc : cs[i]? = some ⟨none, none⟩) (hs : Grid.cellSize grid.axes index = .ok (some dim))
      (hd : ds.dims = dim.length) :
      GridStep P S ds { ds with
        gridHeap := (ds.gridHeap ++ [Grid.fresh (some g) dim]).set g { grid with
          cells := some (cs.set i ⟨some ds.gridHeap.length, none⟩) } }
  | axis {ds : Dataset V} {g : ℕ} {grid : Grid} {i : ℕ} {axis axis' : Axis}
      (hg : ds.gridHeap[g]? = some grid) (hcs : grid.cells = none)
      (ha : grid.axes[i]? = some axis) (hS : S axis axis') :
      GridStep P S ds (ds.setGrid g { grid with axes := grid.axes.set i axis' })
  | allocate {ds : Dataset V} {g : ℕ} {grid grid' : Grid} (hg : ds.gridHeap[g]? = some grid)
      (h : grid.ensureGrid = .ok grid') : GridStep P S ds (ds.setGrid g grid')
  | id {ds : Dataset V} {g : ℕ} {grid : Grid} {id : Option String}
      (hg : ds.gridHeap[g]? = some grid) : GridStep P S ds (ds.setGrid g { grid with id := id })
  | fill {ds ds' : Dataset V} {g : ℕ} {grid : Grid} {cs : List GridEntry} {index : List ℤ} {i : ℕ}
      {space : Dataspace} {r : ℕ} (hP : P space) (hg : ds.gridHeap[g]? = some grid)
      (hcs : grid.cells = some cs)
      (hf : Grid.findCell grid.axes space.dim false = .ok (some index, false))
      (hi : grid.linearIndex index = i) (hd : space.dims = ds.dims)
      (hc : cs[i]? = some ⟨none, none⟩)
      (hr : (space.getExtends, r) ∈ ds.table) (h : ds.fillCell g i r = .ok ds') :
      GridStep P S ds ds'

/-- One change to the dataset. -/
inductive Step (P : Dataspace → Prop) (S : Axis → Axis → Prop) : Dataset V → Dataset V → Prop
  | io {ds ds' : Dataset V} (h : IoStep P ds ds') : Step P S ds ds'
  | grid {ds ds' : Dataset V} (h : GridStep P S ds ds') : Step P S ds ds'
  | fillValue {ds : Dataset V} (v : Option V) : Step P S ds { ds with fillValue := v }
  | leave {ds : Dataset V} : Step P S ds ds.leave

abbrev Steps (P : Dataspace → Prop) (S : Axis → Axis → Prop) : Dataset V → Dataset V → Prop :=
  Relation.ReflTransGen (Step P S)

theorem IoSteps.steps (h : IoSteps P ds ds') : Steps P S ds ds' :=
  Relation.ReflTransGen.mono (fun _ _ h => .io h) _ _ h

/-- Some changes to the grids. -/
abbrev GridSteps (P : Dataspace → Prop) (S : Axis → Axis → Prop) : Dataset V → Dataset V → Prop :=
  Relation.ReflTransGen (GridStep P S)

theorem GridSteps.steps (h : GridSteps P S ds ds') : Steps P S ds ds' :=
  Relation.ReflTransGen.mono (fun _ _ h => .grid h) _ _ h

section Grids

theorem ensureGrid_axes {grid' : Grid} (h : grid.ensureGrid = .ok grid') :
    grid'.axes = grid.axes ∧ ∃ cs, grid'.cells = some cs := by
  obtain ⟨hc, rfl⟩ | ⟨-, -, rfl⟩ := Grid.ensureGrid_eq_ok h
  · exact ⟨rfl, Option.ne_none_iff_exists'.1 hc⟩
  · exact ⟨rfl, _, rfl⟩

theorem setGrid_getElem?_self (hg : ds.gridHeap[g]? = some grid) (grid' : Grid) :
    (ds.setGrid g grid').gridHeap[g]? = some grid' := by
  rw [setGrid, Grid.getElem?_set_of_some hg, if_pos rfl]

theorem gridCreate_steps {dim : List Dim} {status : Status}
    (h : ds.gridCreate dim = .ok (status, ds')) : GridSteps P S ds ds' := by
  unfold gridCreate gridCreateInternal at h
  obtain ⟨ds₁, hc, h⟩ := Outcome.bind_eq_ok.1 h
  obtain ⟨-, rfl⟩ := Prod.mk.inj (Except.ok.inj h)
  obtain ⟨_, hd, hc⟩ := Outcome.bind_eq_ok.1 hc
  obtain ⟨_, hpos, hc⟩ := Outcome.bind_eq_ok.1 hc
  rw [← Except.ok.inj hc]
  exact .single (.create (eassert_eq_ok.1 hd) (eassert_eq_ok.1 hpos))

theorem gridCreateSubgrid_steps {index : List ℤ} (hl : index.length = ds.dims) {status : Status}
    (h : ds.gridCreateSubgrid g index = .ok (status, ds')) : GridSteps P S ds ds' := by
  unfold gridCreateSubgrid at h
  obtain ⟨grid, hg, h⟩ := Outcome.bind_eq_ok.1 h
  have hg := grid_eq_ok.1 hg
  by_cases hid : grid.id ≠ none
  · rw [if_pos hid] at h
    obtain ⟨-, rfl⟩ := Prod.mk.inj (Except.ok.inj h)
    exact .refl
  rw [if_neg hid] at h
  dsimp only at h
  by_cases hi : grid.linearIndex index < 0
  · rw [if_pos hi] at h
    obtain ⟨-, rfl⟩ := Prod.mk.inj (Except.ok.inj h)
    exact .refl
  rw [if_neg hi] at h
  obtain ⟨grid', he, h⟩ := Outcome.bind_eq_ok.1 h
  refine .head (.allocate hg he) ?_
  have hg' := setGrid_getElem?_self hg grid'
  have hi' : grid'.linearIndex index = (grid.linearIndex index).toNat := by
    rw [Grid.linearIndex, (ensureGrid_axes he).1, Int.toNat_of_nonneg (by omega), Grid.linearIndex]
  obtain ⟨cell, hc, h⟩ := Outcome.bind_eq_ok.1 h
  obtain ⟨-, cs, hcs, hc⟩ := Grid.cell_eq_ok.1 hc
  by_cases hcell : cell.subgrid ≠ none ∨ cell.fragment ≠ none
  · rw [if_pos hcell] at h
    obtain ⟨-, rfl⟩ := Prod.mk.inj (Except.ok.inj h)
    exact .refl
  rw [if_neg hcell] at h
  obtain ⟨hsub, hfrag⟩ : cell.subgrid = none ∧ cell.fragment = none := by
    simpa [not_or] using hcell
  obtain rfl : cell = ⟨none, none⟩ := by
    cases cell
    exact GridEntry.mk.injEq .. ▸ ⟨hsub, hfrag⟩
  obtain ⟨dim, hs, h⟩ := Outcome.bind_eq_ok.1 h
  rcases dim with _ | dim
  · obtain ⟨-, rfl⟩ := Prod.mk.inj (Except.ok.inj h)
    exact .refl
  · obtain ⟨ds₁, hcr, h⟩ := Outcome.bind_eq_ok.1 h
    obtain ⟨-, rfl⟩ := Prod.mk.inj (Except.ok.inj h)
    unfold gridCreateInternal at hcr
    obtain ⟨_, hd, hcr⟩ := Outcome.bind_eq_ok.1 hcr
    obtain ⟨_, -, hcr⟩ := Outcome.bind_eq_ok.1 hcr
    obtain rfl := Except.ok.inj hcr
    have := @GridStep.subgrid V P S _ _ _ _ _ _ _ hg' hcs hi' hl hc hs (eassert_eq_ok.1 hd)
    convert Relation.ReflTransGen.single this using 1
    simp [setGrid, Grid.setCell, hcs, Grid.fresh]

theorem gridSubdivideWith_steps {dim : ℤ} {subdivide : Axis → Outcome (Status × Axis)}
    (hS : ∀ axis axis' status, subdivide axis = .ok (status, axis') → S axis axis')
    {status : Status} (h : ds.gridSubdivideWith g dim subdivide = .ok (status, ds')) :
    GridSteps P S ds ds' := by
  unfold gridSubdivideWith at h
  obtain ⟨grid, hg, h⟩ := Outcome.bind_eq_ok.1 h
  split_ifs at h with h1 h2
  · obtain ⟨-, rfl⟩ := Prod.mk.inj (Except.ok.inj h)
    exact .refl
  · obtain ⟨-, rfl⟩ := Prod.mk.inj (Except.ok.inj h)
    exact .refl
  · obtain ⟨axis, ha, h⟩ := Outcome.bind_eq_ok.1 h
    obtain ⟨⟨_, axis'⟩, hsub, h⟩ := Outcome.bind_eq_ok.1 h
    obtain ⟨-, rfl⟩ := Prod.mk.inj (Except.ok.inj h)
    exact .single (.axis (grid_eq_ok.1 hg) (not_not.1 h2) (access_eq_ok.1 ha) (hS _ _ _ hsub))

theorem serializeCells_steps {nested : ℕ → Dataset V → Outcome (Dataset V × Json)}
    (hn : ∀ {h : ℕ} {ds ds' : Dataset V} {json : Json}, nested h ds = .ok (ds', json) →
      GridSteps P S ds ds') {cells : List GridEntry} {json : List Json}
    (h : serializeCells nested cells ds = .ok (ds', json)) : GridSteps P S ds ds' := by
  induction cells generalizing ds json with
  | nil =>
    obtain ⟨rfl, -⟩ := Prod.mk.inj (Except.ok.inj h)
    exact .refl
  | cons cell cells ih =>
    rw [serializeCells] at h
    obtain ⟨⟨ds₁, j⟩, hc, h⟩ := Outcome.bind_eq_ok.1 h
    obtain ⟨⟨ds₂, js⟩, hcs, h⟩ := Outcome.bind_eq_ok.1 h
    obtain ⟨rfl, -⟩ := Prod.mk.inj (Except.ok.inj h)
    refine Relation.ReflTransGen.trans ?_ (ih hcs)
    unfold serializeCell at hc
    obtain ⟨_, -, hc⟩ := Outcome.bind_eq_ok.1 hc
    split at hc
    · obtain ⟨⟨ds₃, j'⟩, hnest, hc⟩ := Outcome.bind_eq_ok.1 hc
      obtain ⟨rfl, -⟩ := Prod.mk.inj (Except.ok.inj hc)
      exact hn hnest
    · obtain ⟨f, -, hc⟩ := Outcome.bind_eq_ok.1 hc
      obtain ⟨_, -, hc⟩ := Outcome.bind_eq_ok.1 hc
      obtain ⟨j', -, hc⟩ := Outcome.bind_eq_ok.1 hc
      obtain ⟨rfl, -⟩ := Prod.mk.inj (Except.ok.inj hc)
      exact .refl
    · obtain ⟨rfl, -⟩ := Prod.mk.inj (Except.ok.inj hc)
      exact .refl

theorem gridSerialize_steps : ∀ {depth g : ℕ} {ds ds' : Dataset V} {json : Json},
    gridSerialize env depth g ds = .ok (ds', json) → GridSteps P S ds ds'
  | 0, _, _, _, _, h => by cases h
  | depth + 1, g, ds, ds', json, h => by
    rw [gridSerialize] at h
    obtain ⟨grid, hg, h⟩ := Outcome.bind_eq_ok.1 h
    obtain ⟨grid₂, hfix, h⟩ := Outcome.bind_eq_ok.1 h
    obtain ⟨id, -, h⟩ := Outcome.bind_eq_ok.1 h
    obtain ⟨cells, -, h⟩ := Outcome.bind_eq_ok.1 h
    obtain ⟨⟨ds₁, js⟩, hcells, h⟩ := Outcome.bind_eq_ok.1 h
    obtain ⟨rfl, -⟩ := Prod.mk.inj (Except.ok.inj h)
    obtain ⟨grid₁, he, hfix⟩ := Outcome.bind_eq_ok.1 hfix
    have hg := grid_eq_ok.1 hg
    have hid : GridStep P S (ds.setGrid g grid₁)
        ((ds.setGrid g grid₁).setGrid g { grid₁ with id := grid₂.id }) :=
      .id (setGrid_getElem?_self hg grid₁)
    have hset : (ds.setGrid g grid₁).setGrid g { grid₁ with id := grid₂.id }
        = ds.setGrid g grid₂ := by
      rw [← Except.ok.inj hfix]
      simp [setGrid]
    rw [hset] at hid
    exact .head (.allocate hg he) (.head hid (serializeCells_steps gridSerialize_steps hcells))

end Grids

section Cells

/-- A grid gets its cells. -/
def Allocates (ds ds' : Dataset V) : Prop :=
  ∃ g grid grid', ds.gridHeap[g]? = some grid ∧ Grid.ensureGrid grid = .ok grid'
    ∧ ds' = ds.setGrid g grid'

theorem allocates_steps (h : Relation.ReflTransGen Allocates ds ds') : Steps P S ds ds' :=
  Relation.ReflTransGen.mono (fun _ _ ⟨_, _, _, hg, he, h⟩ => h ▸ .grid (.allocate hg he)) _ _ h

/-- The cell of a grid that a space fits exactly, and which has no subgrid. -/
structure Fits (ds : Dataset V) (space : Dataspace) (g i : ℕ) (grid : Grid) (cs : List GridEntry)
    (c : GridEntry) (index : List ℤ) : Prop where
  heap : ds.gridHeap[g]? = some grid
  cells : grid.cells = some cs
  cell : cs[i]? = some c
  subgrid : c.subgrid = none
  found : Grid.findCell grid.axes space.dim false = .ok (some index, false)
  index : grid.linearIndex index = i

theorem findCellInHierarchy_eq_ok : ∀ {depth g : ℕ} {ds ds' : Dataset V} {found : Option (ℕ × ℤ)},
    findCellInHierarchy space depth g ds = .ok (ds', found) →
    Relation.ReflTransGen Allocates ds ds'
      ∧ ∀ h j, found = some (h, j) → ∃ (i : ℕ) (grid : Grid) (cs : List GridEntry) (c : GridEntry)
        (index : List ℤ), j = i ∧ Fits ds' space h i grid cs c index
  | 0, _, _, _, _, h => by cases h
  | depth + 1, g, ds, ds', found, h => by
    rw [findCellInHierarchy] at h
    obtain ⟨grid, hg, h⟩ := Outcome.bind_eq_ok.1 h
    obtain ⟨⟨index, tooSmall⟩, hf, h⟩ := Outcome.bind_eq_ok.1 h
    have hg := grid_eq_ok.1 hg
    rcases index with _ | index
    · obtain ⟨rfl, rfl⟩ := Prod.mk.inj (Except.ok.inj h)
      exact ⟨.refl, by simp⟩
    obtain ⟨_, hi, h⟩ := Outcome.bind_eq_ok.1 h
    have hi := eassert_eq_ok.1 hi
    by_cases hsmall : grid.cells = none ∧ tooSmall = true
    · rw [if_pos hsmall] at h
      obtain ⟨rfl, rfl⟩ := Prod.mk.inj (Except.ok.inj h)
      exact ⟨.refl, by simp⟩
    rw [if_neg hsmall] at h
    obtain ⟨grid', he, h⟩ := Outcome.bind_eq_ok.1 h
    obtain ⟨cell, hc, h⟩ := Outcome.bind_eq_ok.1 h
    obtain ⟨-, cs, hcs, hc⟩ := Grid.cell_eq_ok.1 hc
    have ha : Allocates ds (ds.setGrid g grid') := ⟨g, grid, grid', hg, he, rfl⟩
    rcases hsub : cell.subgrid with _ | k
    · rw [hsub] at h
      cases tooSmall with
      | true =>
        obtain ⟨rfl, rfl⟩ := Prod.mk.inj (Except.ok.inj h)
        exact ⟨.single ha, by simp⟩
      | false =>
        obtain ⟨rfl, rfl⟩ := Prod.mk.inj (Except.ok.inj h)
        refine ⟨.single ha, ?_⟩
        rintro h j ⟨⟩
        have haxes := (ensureGrid_axes he).1
        refine ⟨_, grid', cs, cell, index, (Int.toNat_of_nonneg hi).symm,
          setGrid_getElem?_self hg grid', hcs, hc, hsub, haxes ▸ hf, ?_⟩
        rw [Grid.linearIndex, haxes, Int.toNat_of_nonneg hi, Grid.linearIndex]
    · rw [hsub] at h
      obtain ⟨hal, hfits⟩ := findCellInHierarchy_eq_ok h
      exact ⟨.head ha hal, hfits⟩

/-- An empty cell that fits a space gets the fragment of the space's shape. -/
theorem fillCell_steps {i r : ℕ} {cs : List GridEntry} {index : List ℤ} (hP : P space)
    (hF : Fits ds space g i grid cs ⟨none, none⟩ index) (hd : space.dims = ds.dims)
    (hr : (space.getExtends, r) ∈ ds.table) (h : ds.fillCell g i r = .ok ds') :
    Steps P S ds ds' :=
  .single (.grid (.fill hP hF.heap hF.cells hF.found hF.index hd hF.cell hr h))

theorem Fits.created {i : ℕ} {cs : List GridEntry} {c : GridEntry} {index : List ℤ}
    (hF : Fits ds space g i grid cs c index) (space' : Dataspace) (buf : Option (Buf V)) :
    Fits (ds.created space' buf) space g i grid cs c index :=
  ⟨hF.heap, hF.cells, hF.cell, hF.subgrid, hF.found, hF.index⟩

theorem mem_created_table (ds : Dataset V) (space : Dataspace) (buf : Option (Buf V)) :
    (space.getExtends, ds.fragments.length) ∈ (ds.created space buf).table := by
  simp [Dataset.created, addFragment, updateActualSize, Fragment.shape, newFragment]

/-- What `esdm_write_grid` does. -/
theorem writeGrid_eq_ok {status : Status} (h : ds.writeGrid env g user space = .ok (status, ds')) :
    ∃ ds₁, Relation.ReflTransGen Allocates ds ds₁
      ∧ ((status = .invalidArgumentError ∧ ds' = ds₁)
        ∨ ∃ (k i : ℕ) (grid : Grid) (cs : List GridEntry) (c : GridEntry) (index : List ℤ),
          findCellInHierarchy space ds.gridHeap.length g ds = .ok (ds₁, some (k, (i : ℤ)))
          ∧ Fits ds₁ space k i grid cs c index
          ∧ ((c.fragment ≠ none ∧ status = .success ∧ ds' = ds₁)
            ∨ (c = ⟨none, none⟩ ∧ ∃ r, ds₁.lookupForShape space.getExtends = some r
              ∧ status = .success ∧ ds₁.fillCell k i r = .ok ds')
            ∨ (c = ⟨none, none⟩ ∧ space.getExtends ∉ ds₁.shapes
              ∧ fragmentChecks ds₁.dataspace.dim space.dim = .ok ()
              ∧ ∃ ds₂, (ds₁.created space (some (.user 0))).fillCell k i ds₁.fragments.length
                = .ok ds₂
                ∧ ds₂.writeFragmentBlocking env ds₁.fragments.length user
                  = .ok (status, ds')))) := by
  unfold writeGrid at h
  obtain ⟨grid, -, h⟩ := Outcome.bind_eq_ok.1 h
  split_ifs at h
  · obtain ⟨rfl, rfl⟩ := Prod.mk.inj (Except.ok.inj h)
    exact ⟨ds, .refl, .inl ⟨rfl, rfl⟩⟩
  obtain ⟨⟨ds₁, found⟩, hfind, h⟩ := Outcome.bind_eq_ok.1 h
  obtain ⟨hal, hfits⟩ := findCellInHierarchy_eq_ok hfind
  refine ⟨ds₁, hal, ?_⟩
  rcases found with _ | ⟨k, j⟩
  · obtain ⟨rfl, rfl⟩ := Prod.mk.inj (Except.ok.inj h)
    exact .inl ⟨rfl, rfl⟩
  obtain ⟨i, grid, cs, c, index, rfl, hF⟩ := hfits k j rfl
  refine .inr ⟨k, i, grid, cs, c, index, hfind, hF, ?_⟩
  have hcell : grid.cell i = .ok c := Grid.cell_eq_ok.2 ⟨by omega, cs, hF.cells, hF.cell⟩
  simp only [grid_eq_ok.2 hF.heap, hcell, Outcome.ok_bind] at h
  by_cases hfrag : c.fragment ≠ none
  · rw [if_pos hfrag] at h
    obtain ⟨rfl, rfl⟩ := Prod.mk.inj (Except.ok.inj h)
    exact .inl ⟨hfrag, rfl, rfl⟩
  rw [if_neg hfrag] at h
  have hc : c = ⟨none, none⟩ := by
    cases c
    exact GridEntry.mk.injEq .. ▸ ⟨hF.subgrid, not_not.1 hfrag⟩
  right
  split at h
  · rename_i r hr
    obtain ⟨ds₂, hfill, h⟩ := Outcome.bind_eq_ok.1 h
    obtain ⟨rfl, rfl⟩ := Prod.mk.inj (Except.ok.inj h)
    exact .inl ⟨hc, r, hr, rfl, hfill⟩
  · rename_i hl
    have hl := lookupForShape_eq_none.1 hl
    obtain ⟨⟨ds₂, r, isNew⟩, hcr, h⟩ := Outcome.bind_eq_ok.1 h
    obtain ⟨-, -, hr⟩ | ⟨rfl, rfl, rfl, -, hch⟩ := createFragment_eq_ok hcr
    · exact absurd (mem_shapes.2 ⟨r, hr⟩) hl
    · obtain ⟨ds₃, hfill, h⟩ := Outcome.bind_eq_ok.1 h
      exact .inr ⟨hc, hl, hch, ds₃, hfill, h⟩

theorem Allocates.dims (h : Relation.ReflTransGen Allocates ds ds') : ds'.dims = ds.dims := by
  induction h with
  | refl => rfl
  | tail _ hs ih =>
    obtain ⟨_, _, _, -, -, rfl⟩ := hs
    exact ih

theorem writeGrid_steps (hP : P space) (hd : space.dims = ds.dims) {status : Status}
    (h : ds.writeGrid env g user space = .ok (status, ds')) : Steps P S ds ds' := by
  obtain ⟨ds₁, hal, hrest⟩ := writeGrid_eq_ok h
  refine (allocates_steps hal).trans ?_
  have hd₁ := hd.trans (Allocates.dims hal).symm
  obtain ⟨-, rfl⟩ | ⟨k, i, grid, cs, c, index, -, hF, hc⟩ := hrest
  · exact .refl
  obtain ⟨-, -, rfl⟩ | ⟨rfl, r, hr, -, hfill⟩ | ⟨rfl, hs, hch, ds₂, hfill, hw⟩ := hc
  · exact .refl
  · exact fillCell_steps hP hF hd₁ (mem_of_lookupForShape hr) hfill
  · exact .head (.io (.create hP hs hch))
      ((fillCell_steps hP (hF.created space _) hd₁ (mem_created_table ..) hfill).trans
        (.single (.io (writeFragmentNonblocking_steps hw))))

/-- What the read of an empty cell does. -/
theorem readEmptyCell_eq_ok {i : ℕ} {status : Status} (hs : ∀ d ∈ space.dim, 0 < d.size)
    (hnew : space.getExtends ∉ ds.shapes)
    (h : ds.readEmptyCell env g i user space = .ok (status, user', ds')) :
    ∃ ret ds₁, ds.readBlocking env user space false = .ok (ret, user', ds₁)
      ∧ IoSteps (fun _ => False) ds ds₁ ∧ status = ret
      ∧ ((ret ≠ .success ∧ ds' = ds₁)
        ∨ (ret = .success ∧ space.getExtends ∉ ds₁.shapes
          ∧ fragmentChecks ds₁.dataspace.dim space.dim = .ok ()
          ∧ ∃ ds₂ status₂,
            (ds₁.created space (some (.user 0))).fillCell g i ds₁.fragments.length = .ok ds₂
            ∧ ds₂.writeFragmentBlocking env ds₁.fragments.length user' = .ok (status₂, ds'))) := by
  unfold readEmptyCell at h
  obtain ⟨⟨ret, user₁, ds₁⟩, hr, h⟩ := Outcome.bind_eq_ok.1 h
  obtain ⟨covering, -, hio⟩ := readBlocking_steps hs hr
  have hio : IoSteps (fun _ => False) ds ds₁ := hio.mono fun _ h => Bool.false_ne_true h.1
  have hnew₁ : space.getExtends ∉ ds₁.shapes := by rwa [shapes, hio.table_eq]
  refine ⟨ret, ds₁, ?_⟩
  split at h
  · rename_i heq
    obtain ⟨rfl, rfl, rfl⟩ := Prod.mk.injEq .. ▸ (Prod.mk.inj heq)
    obtain ⟨⟨ds₂, r, isNew⟩, hcr, h⟩ := Outcome.bind_eq_ok.1 h
    obtain ⟨-, -, hr'⟩ | ⟨rfl, rfl, rfl, -, hch⟩ := createFragment_eq_ok hcr
    · exact absurd (mem_shapes.2 ⟨r, hr'⟩) hnew₁
    · obtain ⟨ds₃, hfill, h⟩ := Outcome.bind_eq_ok.1 h
      obtain ⟨⟨status₂, ds₄⟩, hw, h⟩ := Outcome.bind_eq_ok.1 h
      obtain ⟨rfl, rfl, rfl⟩ := Prod.mk.inj (Except.ok.inj h)
      exact ⟨hr, hio, rfl, .inr ⟨rfl, hnew₁, hch, ds₃, status₂, hfill, hw⟩⟩
  · rename_i hne heq
    obtain ⟨rfl, rfl, rfl⟩ := Prod.mk.inj heq
    obtain ⟨rfl, rfl, rfl⟩ := Prod.mk.inj (Except.ok.inj h)
    exact ⟨hr, hio, rfl, .inl ⟨hne, rfl⟩⟩

/-- What `esdm_read_grid` does. -/
theorem readGrid_eq_ok {status : Status}
    (h : ds.readGrid env g user space = .ok (status, user', ds')) :
    ∃ ds₁, Relation.ReflTransGen Allocates ds ds₁
      ∧ (((∃ grid, ds.gridHeap[g]? = some grid ∧ (grid.dimCount ≠ space.dims
            ∨ findCellInHierarchy space ds.gridHeap.length g ds = .ok (ds₁, none)))
          ∧ status = .invalidArgumentError ∧ user' = user ∧ ds' = ds₁)
        ∨ ∃ (k i : ℕ) (grid : Grid) (cs : List GridEntry) (c : GridEntry) (index : List ℤ),
          findCellInHierarchy space ds.gridHeap.length g ds = .ok (ds₁, some (k, (i : ℤ)))
          ∧ Fits ds₁ space k i grid cs c index
          ∧ ((∃ r, c.fragment = some r
              ∧ ds₁.readSingleFragmentBlocking env user space r = .ok (status, user', ds'))
            ∨ (c = ⟨none, none⟩ ∧ ∃ r ds₂, ds₁.lookupForShape space.getExtends = some r
              ∧ ds₁.fillCell k i r = .ok ds₂
              ∧ ds₂.readSingleFragmentBlocking env user space r = .ok (status, user', ds'))
            ∨ (c = ⟨none, none⟩ ∧ space.getExtends ∉ ds₁.shapes
              ∧ ds₁.readEmptyCell env k i user space = .ok (status, user', ds')))) := by
  unfold readGrid at h
  obtain ⟨grid, hg, h⟩ := Outcome.bind_eq_ok.1 h
  have hg := grid_eq_ok.1 hg
  split_ifs at h with hdims
  · obtain ⟨rfl, rfl, rfl⟩ := Prod.mk.inj (Except.ok.inj h)
    exact ⟨ds, .refl, .inl ⟨⟨grid, hg, .inl hdims⟩, rfl, rfl, rfl⟩⟩
  obtain ⟨⟨ds₁, found⟩, hfind, h⟩ := Outcome.bind_eq_ok.1 h
  obtain ⟨hal, hfits⟩ := findCellInHierarchy_eq_ok hfind
  refine ⟨ds₁, hal, ?_⟩
  rcases found with _ | ⟨k, j⟩
  · obtain ⟨rfl, rfl, rfl⟩ := Prod.mk.inj (Except.ok.inj h)
    exact .inl ⟨⟨grid, hg, .inr hfind⟩, rfl, rfl, rfl⟩
  obtain ⟨i, grid, cs, c, index, rfl, hF⟩ := hfits k j rfl
  refine .inr ⟨k, i, grid, cs, c, index, hfind, hF, ?_⟩
  have hcell : grid.cell i = .ok c := Grid.cell_eq_ok.2 ⟨by omega, cs, hF.cells, hF.cell⟩
  simp only [grid_eq_ok.2 hF.heap, hcell, Outcome.ok_bind] at h
  rcases hfrag : c.fragment with _ | r <;> rw [hfrag] at h
  · have hc : c = ⟨none, none⟩ := by
      cases c
      exact GridEntry.mk.injEq .. ▸ ⟨hF.subgrid, hfrag⟩
    dsimp only at h
    split at h
    · rename_i r hr
      obtain ⟨ds₂, hfill, h⟩ := Outcome.bind_eq_ok.1 h
      exact .inr (.inl ⟨hc, r, ds₂, hr, hfill, h⟩)
    · rename_i hl
      exact .inr (.inr ⟨hc, lookupForShape_eq_none.1 hl, h⟩)
  · exact .inl ⟨r, rfl, h⟩

theorem readGrid_steps (hP : P space) (hd : space.dims = ds.dims)
    (hs : ∀ d ∈ space.dim, 0 < d.size) {status : Status}
    (h : ds.readGrid env g user space = .ok (status, user', ds')) : Steps P S ds ds' := by
  obtain ⟨ds₁, hal, hrest⟩ := readGrid_eq_ok h
  refine (allocates_steps hal).trans ?_
  have hd₁ := hd.trans (Allocates.dims hal).symm
  obtain ⟨-, -, -, rfl⟩ | ⟨k, i, grid, cs, c, index, -, hF, hc⟩ := hrest
  · exact .refl
  obtain ⟨r, -, hr⟩ | ⟨rfl, r, ds₂, hr, hfill, hread⟩ | ⟨rfl, hnew, hread⟩ := hc
  · exact (enqueueRead_steps hr).steps
  · exact (fillCell_steps hP hF hd₁ (mem_of_lookupForShape hr) hfill).trans
      (enqueueRead_steps hread).steps
  · obtain ⟨ret, ds₂, -, hio, -, hend⟩ := readEmptyCell_eq_ok hs hnew hread
    have hsame := hio.sameGrids
    refine (hio.mono fun _ h => h.elim).steps.trans ?_
    obtain ⟨-, rfl⟩ | ⟨-, hs₂, hch, ds₃, status₂, hfill, hw⟩ := hend
    · exact .refl
    · have hF₂ : Fits ds₂ space k i grid cs ⟨none, none⟩ index :=
        ⟨hsame.gridHeap ▸ hF.heap, hF.cells, hF.cell, hF.subgrid, hF.found, hF.index⟩
      have hd₂ : space.dims = ds₂.dims := by rw [dims, hsame.dataspace]; exact hd₁
      exact .head (.io (.create hP hs₂ hch))
        ((fillCell_steps hP (hF₂.created space _) hd₂ (mem_created_table ..) hfill).trans
          (.single (.io (writeFragmentNonblocking_steps hw))))

end Cells

end Dataset

/-- How a call subdivides an axis. -/
def Op.Subdivides : Op V → Axis → Axis → Prop
  | .gridSubdivideFixed _ _ size allowIncomplete => fun axis axis' =>
    ∃ status, axis.subdivideFixed size allowIncomplete = .ok (status, axis')
  | .gridSubdivideFlexible _ _ count => fun axis axis' =>
    ∃ status, axis.subdivideFlexible count = .ok (status, axis')
  | .gridSubdivide _ _ bounds => fun axis axis' =>
    ∃ status, axis.subdivide bounds = .ok (status, axis')
  | _ => fun _ _ => False

/-- The spaces a call can create fragments for, on a dataset of the given rank. -/
def Op.Writes (dims : ℕ) : Op V → Dataspace → Prop
  | .write space _ | .read space _ | .writeGrid _ space _ | .readGrid _ space _ =>
    fun sub => Dataset.PartOf space.toDataspace sub ∧ sub.dims = dims
  | _ => fun _ => False

namespace Dataset

variable {ds ds' : Dataset V}

theorem PartOf.refl (space : Dataspace) : PartOf space space := ⟨rfl, rfl, fun _ h => h⟩

theorem returns_eq_ok {x : Outcome (Status × Dataset V)} {result : Result V}
    (h : returns x = .ok result) :
    ∃ ds', x = .ok (result.status, ds') ∧ result = ⟨result.status, none, ds'.leave⟩ := by
  obtain ⟨⟨status, ds'⟩, hx, h⟩ := Outcome.bind_eq_ok.1 h
  obtain rfl := Except.ok.inj h
  exact ⟨ds', hx, rfl⟩

theorem returnsBuffer_eq_ok {x : Outcome (Status × Mem V × Dataset V)} {result : Result V}
    (h : returnsBuffer x = .ok result) :
    ∃ buffer ds', x = .ok (result.status, buffer, ds')
      ∧ result = ⟨result.status, some buffer, ds'.leave⟩ := by
  obtain ⟨⟨status, buffer, ds'⟩, hx, h⟩ := Outcome.bind_eq_ok.1 h
  obtain rfl := Except.ok.inj h
  exact ⟨buffer, ds', hx, rfl⟩

/-- A call is a sequence of small steps. -/
theorem step_steps {c : Call V} {result : Result V} (h : ds.step c = .ok result) :
    Steps (c.op.Writes ds.dims) c.op.Subdivides ds result.dataset := by
  have hleave : ∀ {ds' : Dataset V}, Steps (c.op.Writes ds.dims) c.op.Subdivides ds ds' →
      Steps (c.op.Writes ds.dims) c.op.Subdivides ds ds'.leave := fun h => h.tail .leave
  obtain ⟨env, op⟩ := c
  cases op with
  | write space buf =>
    obtain ⟨_, hd, h⟩ := Outcome.bind_eq_ok.1 h
    obtain ⟨ds', hx, hres⟩ := returns_eq_ok h
    rw [hres]
    refine hleave ((writeBlocking_steps space.size_pos hx).mono fun _ h => ⟨h, ?_⟩).steps
    exact h.2.1.trans (eassert_eq_ok.1 hd)
  | read space buf =>
    obtain ⟨_, hd, h⟩ := Outcome.bind_eq_ok.1 h
    obtain ⟨buffer, ds', hx, hres⟩ := returnsBuffer_eq_ok h
    obtain ⟨covering, -, hio⟩ := readBlocking_steps space.size_pos hx
    rw [hres]
    refine hleave (hio.mono fun _ h => ⟨h.2.2, ?_⟩).steps
    exact h.2.2.2.1.trans (eassert_eq_ok.1 hd)
  | setFillValue value =>
    obtain ⟨ds', hx, hres⟩ := returns_eq_ok h
    obtain ⟨-, rfl⟩ := Prod.mk.inj (Except.ok.inj hx)
    rw [hres]
    exact hleave (.single (.fillValue value))
  | gridCreate dim =>
    obtain ⟨ds', hx, hres⟩ := returns_eq_ok h
    rw [hres]
    exact hleave (gridCreate_steps hx).steps
  | gridCreateSubgrid g index =>
    obtain ⟨_, hl, h⟩ := Outcome.bind_eq_ok.1 h
    obtain ⟨ds', hx, hres⟩ := returns_eq_ok h
    rw [hres]
    exact hleave (gridCreateSubgrid_steps (eassert_eq_ok.1 hl) hx).steps
  | gridSubdivideFixed g dim size allowIncomplete =>
    obtain ⟨ds', hx, hres⟩ := returns_eq_ok h
    rw [hres]
    exact hleave (gridSubdivideWith_steps (fun _ _ _ h => ⟨_, h⟩) hx).steps
  | gridSubdivideFlexible g dim count =>
    obtain ⟨ds', hx, hres⟩ := returns_eq_ok h
    rw [hres]
    exact hleave (gridSubdivideWith_steps (fun _ _ _ h => ⟨_, h⟩) hx).steps
  | gridSubdivide g dim bounds =>
    obtain ⟨ds', hx, hres⟩ := returns_eq_ok h
    obtain ⟨_, -, hx⟩ := Outcome.bind_eq_ok.1 hx
    rw [hres]
    exact hleave (gridSubdivideWith_steps (fun _ _ _ h => ⟨_, h⟩) hx).steps
  | gridSerialize g =>
    obtain ⟨⟨ds₁, json⟩, hs, h⟩ := Outcome.bind_eq_ok.1 h
    obtain ⟨ds', hx, hres⟩ := returns_eq_ok h
    obtain ⟨-, rfl⟩ := Prod.mk.inj (Except.ok.inj hx)
    rw [hres]
    exact hleave (gridSerialize_steps hs).steps
  | writeGrid g space buf =>
    obtain ⟨_, hd, h⟩ := Outcome.bind_eq_ok.1 h
    obtain ⟨ds', hx, hres⟩ := returns_eq_ok h
    rw [hres]
    have hd := eassert_eq_ok.1 hd
    exact hleave (writeGrid_steps ⟨.refl _, hd⟩ hd hx)
  | readGrid g space buf =>
    obtain ⟨_, hd, h⟩ := Outcome.bind_eq_ok.1 h
    obtain ⟨buffer, ds', hx, hres⟩ := returnsBuffer_eq_ok h
    rw [hres]
    have hd := eassert_eq_ok.1 hd
    exact hleave (readGrid_steps ⟨.refl _, hd⟩ hd space.size_pos hx)

/-- The rule for invariants of whole runs. -/
theorem run_induction {I : Dataset V → Prop} : ∀ {calls : List (Call V)} {ds ds' : Dataset V},
    (∀ {ds : Dataset V} {c : Call V} {result : Result V}, c ∈ calls → I ds →
      ds.step c = .ok result → I result.dataset) →
    I ds → ds.run calls = .ok ds' → I ds'
  | [], _, _, _, hI, h => Except.ok.inj h ▸ hI
  | c :: calls, ds, ds', hstep, hI, h => by
    obtain ⟨result, hr, h⟩ := Outcome.bind_eq_ok.1 h
    exact run_induction (fun hc => hstep (List.mem_cons_of_mem _ hc))
      (hstep (List.mem_cons_self ..) hI hr) h

/-- The rule for what holds of each call of a run. -/
theorem EachStep.of_invariant {Q R : Dataset V → Call V → Result V → Prop}
    {I : Dataset V → Prop} : ∀ {calls : List (Call V)} {ds : Dataset V},
    (∀ {ds : Dataset V} {c : Call V} {result : Result V}, c ∈ calls → I ds → Q ds c result →
      ds.step c = .ok result → I result.dataset ∧ R ds c result) →
    I ds → EachStep Q ds calls → EachStep R ds calls
  | [], _, _, _, _ => trivial
  | c :: calls, ds, hstep, hI, hQ => fun result hr => by
    obtain ⟨hq, hQ⟩ := hQ result hr
    obtain ⟨hI', hR⟩ := hstep (List.mem_cons_self ..) hI hq hr
    exact ⟨hR, .of_invariant (fun hc => hstep (List.mem_cons_of_mem _ hc)) hI' hQ⟩

end Dataset

end Esdm
